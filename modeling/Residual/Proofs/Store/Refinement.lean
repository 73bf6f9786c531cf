import Residual.Proofs.Store.Contents

/-!
# Stores refine ledgers

After any history a store shows exactly what the ledger of the same history
holds. The invariant has two halves: the pending list runs through the cells of
the pending values, and the cells hold the values of the ledger.
-/

namespace Residual

variable {α : Type}

namespace Store

/-- The store is a faithful image of the ledger. -/
structure Represents (store : Store α) (ledger : Ledger α) : Prop where
  chain : Chain store.cells none store.head ledger.pending
  distinct : (indices ledger.pending).Nodup
  records : Records store.contents ledger
  free_nodup : store.free.Nodup
  free_empty : ∀ index ∈ store.free, ∃ generation, store.contents[index]? = some (generation, none)
  linked : store.linked = ledger.pending.length
  count : store.cells.length =
    store.free.length + store.retired + ledger.pending.length + ledger.detached.keys.card

theorem represents_empty : Represents (empty : Store α) Ledger.empty := by
  refine ⟨⟨none, rfl, rfl⟩, List.nodup_nil, ?_, List.nodup_nil, ?_, rfl, rfl⟩
  · intro handle value pending
    cases pending <;> simp [Ledger.Lists, Ledger.empty, contents, empty]
  · intro index hindex
    cases hindex

theorem Represents.notMem_of_empty {store : Store α} {ledger : Ledger α}
    (hrepresents : Represents store ledger) (index : Nat)
    (hempty : ∀ generation held, store.contents[index]? = some (generation, held) → held = none) :
    index ∉ indices ledger.pending := by
  intro hmem
  obtain ⟨⟨handle, value⟩, hentry, rfl⟩ := List.mem_map.mp hmem
  cases hempty _ _ ((hrepresents.records handle value true).mp hentry)

theorem represents_pushFront (store : Store α) (ledger : Ledger α) (value : α)
    (hrepresents : Represents store ledger) :
    ledger.Unused (store.pushFront value).1 ∧
      Represents (store.pushFront value).2
        { ledger with pending := ((store.pushFront value).1, value) :: ledger.pending } := by
  have hinserted := inserted_insert store ⟨value, .linked none store.head⟩ hrepresents.free_nodup
    hrepresents.free_empty
  unfold pushFront
  generalize store.insert ⟨value, .linked none store.head⟩ = result at hinserted ⊢
  obtain ⟨handle, stored⟩ := result
  dsimp only at hinserted ⊢
  have hcontents : ({ stored with
      cells := withPrev stored.cells store.head (some handle.index)
      head := some handle.index
      linked := stored.linked + 1 } : Store α).contents = stored.contents :=
    map_content_withPrev _ _ _
  have hindex := hrepresents.notMem_of_empty handle.index hinserted.empty
  -- The new cell was empty, so it is not the old head, whose link back is about to be set.
  have hhead : store.head ≠ some handle.index := by
    rw [hrepresents.chain.cursor_eq]
    intro heq
    exact hindex (List.mem_of_mem_head? heq)
  refine ⟨hrepresents.records.unused_of_empty handle hinserted.empty, ?_, ?_, ?_, ?_, ?_, ?_, ?_⟩
  · have hframe : Chain stored.cells none store.head ledger.pending := by
      refine hrepresents.chain.frame _ _ _ _ _ ?_
      intro index hmem
      exact hinserted.frame index fun heq => hindex (heq ▸ hmem)
    obtain ⟨last, hrest⟩ := hframe.withPrev _ _ _ _ (some handle.index) hrepresents.distinct
    refine ⟨last, rfl, store.head, ?_, hrest⟩
    rw [getElem?_withPrev, if_neg hhead]
    exact hinserted.cell
  · exact List.nodup_cons.mpr ⟨hindex, hrepresents.distinct⟩
  · rw [hcontents]
    exact hrepresents.records.insert handle value true hinserted.empty hinserted.content
      hinserted.contents_frame fun other held linked => ledger.lists_pushFront _ _ _ _ _
  · exact hinserted.free.nodup hrepresents.free_nodup
  · rw [hcontents]
    exact hinserted.free_empty hrepresents.free_empty
  · rw [hinserted.linked, hrepresents.linked]
    rfl
  · have hcount := hrepresents.count
    have hinsert := hinserted.count
    have hlength : (withPrev stored.cells store.head (some handle.index)).length =
        stored.cells.length := by
      rw [← List.length_map, map_content_withPrev, List.length_map]
    simp only [hinserted.retired, List.length_cons, hlength]
    omega

theorem represents_insertDetached (store : Store α) (ledger : Ledger α) (value : α)
    (hrepresents : Represents store ledger) :
    ledger.Unused (store.insertDetached value).1 ∧
      Represents (store.insertDetached value).2
        { ledger with
          detached := ledger.detached.insert (store.insertDetached value).1 value } := by
  have hinserted := inserted_insert store ⟨value, .detached⟩ hrepresents.free_nodup
    hrepresents.free_empty
  unfold insertDetached
  generalize store.insert ⟨value, .detached⟩ = result at hinserted ⊢
  obtain ⟨handle, stored⟩ := result
  dsimp only at hinserted ⊢
  have hindex := hrepresents.notMem_of_empty handle.index hinserted.empty
  have hunused := hrepresents.records.unused_of_empty handle hinserted.empty
  refine ⟨hunused, ?_, hrepresents.distinct, ?_, hinserted.free.nodup hrepresents.free_nodup,
    hinserted.free_empty hrepresents.free_empty, hinserted.linked.trans hrepresents.linked, ?_⟩
  · rw [hinserted.head]
    refine hrepresents.chain.frame _ _ _ _ _ ?_
    intro index hmem
    exact hinserted.frame index fun heq => hindex (heq ▸ hmem)
  · exact hrepresents.records.insert handle value false hinserted.empty hinserted.content
      hinserted.contents_frame fun other held linked =>
        ledger.lists_insertDetached _ _ _ _ _ hunused
  · have hcount := hrepresents.count
    have hinsert := hinserted.count
    simp only [hinserted.retired, ledger.card_insertDetached handle value hunused]
    omega

theorem Represents.lists_iff {store : Store α} {ledger : Ledger α}
    (hrepresents : Represents store ledger) (handle : Handle) (value : α) (pending : Bool) :
    ledger.Lists handle value pending ↔
      ∃ links, store.live? handle = some ⟨value, links⟩ ∧ decide (links ≠ .detached) = pending := by
  rw [hrepresents.records handle value pending, contents_eq_some_iff]

theorem Represents.live_notMem_free {store : Store α} {ledger : Ledger α}
    (hrepresents : Represents store ledger) (handle : Handle) (node : Node α)
    (hlive : store.live? handle = some node) : handle.index ∉ store.free := by
  intro hmem
  obtain ⟨generation, hempty⟩ := hrepresents.free_empty handle.index hmem
  rw [live?_eq_some_iff] at hlive
  rw [contents_of_cell store handle.index _ hlive] at hempty
  cases hempty

theorem represents_releaseDetached (store : Store α) (ledger : Ledger α) (handle : Handle)
    (value : α) (hrepresents : Represents store ledger)
    (hlive : store.live? handle = some ⟨value, .detached⟩) :
    Represents (store.vacate handle.index handle.generation)
      { ledger with detached := ledger.detached.erase handle } := by
  have hlisted : ledger.Lists handle value false :=
    (hrepresents.lists_iff handle value false).mpr ⟨.detached, hlive, rfl⟩
  have hcell := (live?_eq_some_iff store handle _).mp hlive
  have hvacated := vacated_vacate store handle.index handle.generation
    (List.getElem?_eq_some_iff.mp hcell).1
  have hindex : handle.index ∉ indices ledger.pending := by
    intro hmem
    obtain ⟨⟨other, held⟩, hentry, heq⟩ := List.mem_map.mp hmem
    cases (hrepresents.records.eq_of_index_eq handle other value held false true hlisted hentry
      heq).2.2
  refine ⟨?_, hrepresents.distinct, ?_, ?_, hvacated.free_empty hrepresents.free_empty,
    hvacated.linked.trans hrepresents.linked, ?_⟩
  · rw [hvacated.head]
    refine hrepresents.chain.frame _ _ _ _ _ ?_
    intro index hmem
    exact hvacated.frame index fun heq => hindex (heq ▸ hmem)
  · obtain ⟨generation, hcontent⟩ := hvacated.content
    apply hrepresents.records.remove handle value false hlisted generation hcontent
      hvacated.contents_frame
    intro other held linked
    apply ledger.lists_releaseDetached
    intro held hentry
    exact hindex (List.mem_map_of_mem hentry)
  · exact hvacated.free_nodup hrepresents.free_nodup (hrepresents.live_notMem_free handle _ hlive)
  · have hcount := hrepresents.count
    have hfree := hvacated.count
    have hcard := ledger.card_releaseDetached handle value hlisted
    simp only [hvacated.length]
    omega

theorem represents_releasePending (store : Store α) (ledger : Ledger α) (handle : Handle)
    (value : α) (prev next : Option Nat) (front back : List (Handle × α))
    (hrepresents : Represents store ledger)
    (hlive : store.live? handle = some ⟨value, .linked prev next⟩)
    (hpending : ledger.pending = front ++ (handle, value) :: back) :
    Represents ((store.vacate handle.index handle.generation).unlink handle.index prev next)
      { ledger with pending := front ++ back } := by
  have hlisted : ledger.Lists handle value true :=
    (hrepresents.lists_iff handle value true).mpr ⟨.linked prev next, hlive, rfl⟩
  have hcell := (live?_eq_some_iff store handle _).mp hlive
  have hvacated := vacated_vacate store handle.index handle.generation
    (List.getElem?_eq_some_iff.mp hcell).1
  have hcontents : ((store.vacate handle.index handle.generation).unlink handle.index prev
      next).contents = (store.vacate handle.index handle.generation).contents := by
    rw [contents, unlink, map_content_withPrev, map_content_withNext, contents]
  have hdistinct := hrepresents.distinct
  have hchain := hrepresents.chain
  rw [hpending] at hdistinct hchain
  have hrest : (indices (front ++ back)).Nodup ∧ handle.index ∉ indices (front ++ back) := by
    rw [indices, List.map_append, List.map_cons, List.nodup_middle, List.nodup_cons,
      ← List.map_append] at hdistinct
    exact hdistinct.symm
  refine ⟨?_, hrest.1, ?_, ?_, ?_, ?_, ?_⟩
  · have hunlinked := hchain.unlink _ (store.vacate handle.index handle.generation).cells _ _ _ _ _
      prev next hdistinct hcell hvacated.frame
    rw [← hvacated.head] at hunlinked
    exact hunlinked
  · rw [hcontents]
    obtain ⟨generation, hcontent⟩ := hvacated.content
    apply hrepresents.records.remove handle value true hlisted generation hcontent
      hvacated.contents_frame
    intro other held linked
    apply ledger.lists_releasePending handle other value held linked front back hpending
    · intro held hentry
      exact hrest.2 (List.mem_map_of_mem hentry)
    · intro held hdetached
      cases (hrepresents.records.eq_of_index_eq handle handle value held true false hlisted
        hdetached rfl).2.2
  · exact hvacated.free_nodup hrepresents.free_nodup (hrepresents.live_notMem_free handle _ hlive)
  · rw [hcontents]
    exact hvacated.free_empty hrepresents.free_empty
  · have hlinked := hrepresents.linked
    simp only [unlink, hvacated.linked, hlinked, hpending, List.length_append, List.length_cons]
    omega
  · have hcount := hrepresents.count
    have hfree := hvacated.count
    have hlength := congrArg List.length hcontents
    simp only [contents, List.length_map, hvacated.length, unlink] at hlength
    simp only [hpending, List.length_append, List.length_cons] at hcount
    simp only [unlink, hlength, List.length_append]
    omega

/-- What a store does with a command, the ledger can do too. -/
theorem step_refines (store : Store α) (ledger : Ledger α) (command : StoreCommand α)
    (hrepresents : Represents store ledger) :
    ∃ after, Ledger.Step ledger command (store.step command).1 after ∧
      Represents (store.step command).2 after := by
  cases command with
  | pushFront value =>
      obtain ⟨hunused, hafter⟩ := represents_pushFront store ledger value hrepresents
      exact ⟨_, .pushFront ledger _ value hunused, hafter⟩
  | insertDetached value =>
      obtain ⟨hunused, hafter⟩ := represents_insertDetached store ledger value hrepresents
      exact ⟨_, .insertDetached ledger _ value hunused, hafter⟩
  | release handle =>
      rw [step, release]
      split
      next hlive =>
        refine ⟨ledger, .releaseUnused ledger handle ?_, hrepresents⟩
        intro value hholds
        rw [hrepresents.records.holds_iff] at hholds
        obtain ⟨pending, hcontent⟩ := hholds
        obtain ⟨links, hsome, -⟩ := (contents_eq_some_iff store handle value pending).mp hcontent
        rw [hlive] at hsome
        cases hsome
      next value hlive =>
        have hlisted : ledger.Lists handle value false :=
          (hrepresents.lists_iff handle value false).mpr ⟨.detached, hlive, rfl⟩
        exact ⟨_, .releaseDetached ledger handle value hlisted,
          represents_releaseDetached store ledger handle value hrepresents hlive⟩
      next value prev next hlive =>
        have hlisted : ledger.Lists handle value true :=
          (hrepresents.lists_iff handle value true).mpr ⟨.linked prev next, hlive, rfl⟩
        obtain ⟨front, back, hpending⟩ := List.append_of_mem hlisted
        exact ⟨_, .releasePending ledger handle value front back hpending,
          represents_releasePending store ledger handle value prev next front back hrepresents hlive
            hpending⟩

theorem run_refines (store : Store α) (ledger : Ledger α) (commands : List (StoreCommand α))
    (hrepresents : Represents store ledger) :
    ∃ after, Ledger.Run ledger commands (store.run commands).1 after ∧
      Represents (store.run commands).2 after := by
  induction commands generalizing store ledger with
  | nil => exact ⟨ledger, .nil ledger, hrepresents⟩
  | cons command rest ih =>
      obtain ⟨middle, hstep, hmiddle⟩ := step_refines store ledger command hrepresents
      obtain ⟨after, hrun, hafter⟩ := ih (store.step command).2 middle hmiddle
      exact ⟨after, .cons hstep hrun, hafter⟩

theorem pendingFrom_of_segment (store : Store α) (entries : List (Handle × α))
    (prev cursor last : Option Nat) (hsegment : Segment store.cells prev cursor entries last none) :
    store.pendingFrom entries.length cursor = entries := by
  induction entries generalizing prev cursor with
  | nil => rfl
  | cons entry rest ih =>
      obtain ⟨handle, value⟩ := entry
      obtain ⟨rfl, next, hcell, hrest⟩ := hsegment
      simp only [List.length_cons, pendingFrom, hcell, Links.next]
      rw [ih _ _ hrest]

theorem walk_of_segment (store : Store α) (entries : List (Handle × α)) (count : Nat)
    (prev cursor last : Option Nat) (hsegment : Segment store.cells prev cursor entries last none)
    (hcount : entries.length ≤ count) : store.walk count prev cursor = .ok entries.length := by
  induction entries generalizing prev cursor count with
  | nil =>
      obtain ⟨-, rfl⟩ := hsegment
      rw [walk]
      rfl
  | cons entry rest ih =>
      obtain ⟨handle, value⟩ := entry
      obtain ⟨rfl, next, hcell, hrest⟩ := hsegment
      cases count with
      | zero => cases hcount
      | succ count =>
          have hnode : store.node? handle.index = some ⟨value, .linked prev next⟩ := by
            rw [node?, hcell]
          simp only [List.length_cons, Nat.add_le_add_iff_right] at hcount
          simp only [walk, hnode, if_true, ih count _ _ hrest hcount]
          rfl

theorem mem_indices_iff {store : Store α} {ledger : Ledger α}
    (hrepresents : Represents store ledger) (index : Nat) :
    index ∈ indices ledger.pending ↔
      ∃ cell, store.cells[index]? = some cell ∧ holdsPending cell := by
  constructor
  · intro hmem
    obtain ⟨⟨handle, value⟩, hentry, rfl⟩ := List.mem_map.mp hmem
    obtain ⟨last, hsegment⟩ := hrepresents.chain
    obtain ⟨prev, next, hcell⟩ := hsegment.exists_cell _ _ _ _ _ _ handle value hentry
    exact ⟨_, hcell, rfl⟩
  · rintro ⟨⟨generation, held⟩, hcell, hpending⟩
    rcases held with _ | ⟨value, _ | ⟨prev, next⟩⟩
    · cases hpending
    · cases hpending
    · have hentry : ledger.Lists ⟨index, generation⟩ value true :=
        (hrepresents.lists_iff _ _ _).mpr
          ⟨.linked prev next, (live?_eq_some_iff store ⟨index, generation⟩ _).mpr hcell, rfl⟩
      exact List.mem_map_of_mem hentry

theorem countP_holdsPending {store : Store α} {ledger : Ledger α}
    (hrepresents : Represents store ledger) :
    store.cells.countP holdsPending = ledger.pending.length := by
  -- The list runs through exactly the cells that hold pending values, each once.
  have hperm : (store.cells.findIdxs holdsPending).Perm (indices ledger.pending) := by
    apply (List.perm_ext_iff_of_nodup List.nodup_findIdxs hrepresents.distinct).mpr
    intro index
    rw [mem_indices_iff hrepresents, List.mem_findIdxs_iff_exists_getElem_pos]
    constructor
    · rintro ⟨hlt, hpending⟩
      exact ⟨_, List.getElem?_eq_getElem hlt, hpending⟩
    · rintro ⟨cell, hcell, hpending⟩
      obtain ⟨hlt, rfl⟩ := List.getElem?_eq_some_iff.mp hcell
      exact ⟨hlt, hpending⟩
  rw [← List.length_findIdxs, hperm.length_eq, indices, List.length_map]

theorem check_of_represents {store : Store α} {ledger : Ledger α}
    (hrepresents : Represents store ledger) : store.check = .ok () := by
  obtain ⟨last, hsegment⟩ := hrepresents.chain
  have hcount := hrepresents.count
  have hwalk := walk_of_segment store ledger.pending (store.cells.length + 1) none store.head last
    hsegment (by omega)
  rw [check, hwalk]
  simp only [countP_holdsPending hrepresents, hrepresents.linked, and_self, if_true]

namespace Represents

variable {store : Store α} {ledger : Ledger α}

theorem pending_eq (hrepresents : Represents store ledger) : store.pending = ledger.pending := by
  obtain ⟨last, hsegment⟩ := hrepresents.chain
  rw [pending, hrepresents.linked]
  exact pendingFrom_of_segment store ledger.pending none store.head last hsegment

theorem head?_eq (hrepresents : Represents store ledger) :
    store.head? = ledger.pending.head?.map Prod.fst := by
  have hhead := hrepresents.chain.cursor_eq
  obtain ⟨last, hsegment⟩ := hrepresents.chain
  cases hpending : ledger.pending with
  | nil =>
      rw [hpending] at hhead
      rw [head?, hhead]
      rfl
  | cons entry rest =>
      obtain ⟨handle, value⟩ := entry
      rw [hpending] at hsegment
      obtain ⟨hcursor, next, hcell, -⟩ := hsegment
      rw [head?, hcursor, Option.bind_some, handleAt?, hcell]
      rfl

theorem get?_iff (hrepresents : Represents store ledger) (handle : Handle) (value : α) :
    store.get? handle = some value ↔ ledger.Holds handle value := by
  rw [hrepresents.records.holds_iff, get?, Option.map_eq_some_iff]
  constructor
  · rintro ⟨⟨held, links⟩, hlive, rfl⟩
    exact ⟨_, (contents_eq_some_iff store handle held _).mpr ⟨links, hlive, rfl⟩⟩
  · rintro ⟨pending, hcontent⟩
    obtain ⟨links, hlive, -⟩ := (contents_eq_some_iff store handle value pending).mp hcontent
    exact ⟨_, hlive, rfl⟩

theorem isPending_iff (hrepresents : Represents store ledger) (handle : Handle) :
    store.isPending handle = true ↔ handle ∈ ledger.pending.map Prod.fst := by
  constructor
  · intro hpending
    unfold isPending at hpending
    split at hpending
    next value prev next hlive =>
      have hentry : ledger.Lists handle value true :=
        (hrepresents.lists_iff handle value true).mpr ⟨_, hlive, rfl⟩
      exact List.mem_map_of_mem hentry
    next => cases hpending
  · intro hmem
    obtain ⟨⟨other, value⟩, hentry, rfl⟩ := List.mem_map.mp hmem
    obtain ⟨links, hlive, hlinks⟩ := (hrepresents.lists_iff other value true).mp hentry
    cases links with
    | detached => cases hlinks
    | linked prev next => rw [isPending, hlive]

theorem release_unused (hrepresents : Represents store ledger) (handle : Handle)
    (hunused : ledger.Unused handle) : store.release handle = (none, store) := by
  have hlive : store.live? handle = none := by
    rw [← Option.map_eq_none_iff]
    exact Option.eq_none_iff_forall_ne_some.mpr fun value hsome =>
      hunused value ((hrepresents.get?_iff handle value).mp hsome)
  rw [release, hlive]

theorem release_used (hrepresents : Represents store ledger) (handle : Handle) (value : α)
    (hholds : ledger.Holds handle value) : (store.release handle).1 = some value := by
  have hvalue := (hrepresents.get?_iff handle value).mpr hholds
  rw [get?, Option.map_eq_some_iff] at hvalue
  obtain ⟨⟨held, links⟩, hlive, rfl⟩ := hvalue
  cases links <;> rw [release, hlive]

theorem nodup_handles (hrepresents : Represents store ledger) :
    (ledger.pending.map Prod.fst).Nodup := by
  apply List.Nodup.of_map Handle.index
  rw [List.map_map]
  exact hrepresents.distinct

theorem filter_eq_self_of_notMem {entries : List (Handle × α)} {handle : Handle}
    (hnot : ∀ value, (handle, value) ∉ entries) :
    entries.filter (fun entry => decide (handle ≠ entry.1)) = entries := by
  rw [List.filter_eq_self]
  intro entry hentry
  simp only [decide_eq_true_eq]
  rintro rfl
  exact hnot entry.2 hentry

/-- Releasing takes what the handle names off the pending list and leaves the others in their
order. -/
theorem exists_release (hrepresents : Represents store ledger) (handle : Handle) :
    ∃ after, Represents (store.release handle).2 after ∧
      after.pending = ledger.pending.filter fun entry => decide (handle ≠ entry.1) := by
  obtain ⟨after, hstep, hafter⟩ := step_refines store ledger (.release handle) hrepresents
  refine ⟨after, hafter, ?_⟩
  generalize (store.step (.release handle)).1 = reply at hstep
  symm
  cases hstep with
  | releasePending _ value front back hpending =>
      have hnodup := hrepresents.nodup_handles
      rw [hpending, List.map_append, List.map_cons, List.nodup_middle, List.nodup_cons,
        ← List.map_append] at hnodup
      rw [hpending, List.filter_append, List.filter_cons_of_neg (by simp), ← List.filter_append]
      exact filter_eq_self_of_notMem fun held hentry => hnodup.1 (List.mem_map.mpr ⟨_, hentry, rfl⟩)
  | releaseDetached _ value hdetached =>
      apply filter_eq_self_of_notMem
      intro held hentry
      cases (hrepresents.records.eq_of_index_eq handle handle value held false true hdetached hentry
        rfl).2.2
  | releaseUnused _ hunused =>
      exact filter_eq_self_of_notMem fun held hentry => hunused held (Or.inl hentry)

end Represents

theorem shows_of_represents {store : Store α} {ledger : Ledger α}
    (hrepresents : Represents store ledger) : store.Shows ledger where
  pending := hrepresents.pending_eq
  linked := hrepresents.linked
  isEmpty := by
    rw [isEmpty, hrepresents.chain.cursor_eq, Option.isNone_iff_eq_none, List.head?_eq_none_iff,
      indices, List.map_eq_nil_iff]
  head? := hrepresents.head?_eq
  liveCount := by
    have hcount := hrepresents.count
    rw [liveCount]
    omega
  get? := hrepresents.get?_iff
  isPending := hrepresents.isPending_iff
  release_unused := hrepresents.release_unused
  release_used := hrepresents.release_used
  check := check_of_represents hrepresents

/-- A store refines a ledger. After any sequence of commands on a new store,
with any handles released at all, the ledger gives the same answers to the same
commands, and nothing that can be seen of the store tells the two apart. -/
theorem store_refines_ledger (commands : List (StoreCommand α)) :
    ∃ ledger : Ledger α, Ledger.Run .empty commands (empty.run commands).1 ledger ∧
      (empty.run commands).2.Shows ledger := by
  obtain ⟨ledger, hrun, hrepresents⟩ := run_refines empty Ledger.empty commands represents_empty
  exact ⟨ledger, hrun, shows_of_represents hrepresents⟩

end Store

end Residual
