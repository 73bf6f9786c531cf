import Residual.Proofs.Store.Refinement

/-!
# Handles are never reissued

A cell is filled again and again, each time under a later generation, and is
retired once its generations are used up. So a handle is handed out once, and
once its value has been released it names nothing for ever. What carries the
argument is what the store remembers of a handle: the cell has gone past its
generation, or is at it and not free.
-/

namespace Residual

variable {α : Type}

/-- The handle that an answer hands out. -/
def StoreReply.issued? : StoreReply α → Option Handle
  | .stored handle => some handle
  | .released _ => none

/-- The handles that a sequence of answers hands out, oldest first. -/
def issued (replies : List (StoreReply α)) : List Handle := replies.filterMap StoreReply.issued?

/-- What a command puts into a cell: a value, and whether it is pending. -/
def StoreCommand.held? : StoreCommand α → Option (α × Bool)
  | .pushFront value => some (value, true)
  | .insertDetached value => some (value, false)
  | .release _ => none

theorem issued_cons (reply : StoreReply α) (rest : List (StoreReply α)) :
    issued (reply :: rest) = reply.issued?.toList ++ issued rest := by
  cases reply <;> rfl

namespace Store

/-- What a command can do to the cells, apart from their links: fill the first
free one, add one, empty one for its next generation or for good, or nothing. -/
inductive Effect (store : Store α) : StoreCommand α → StoreReply α → Store α → Prop
  | reuse {command : StoreCommand α} {after : Store α} (index : Nat) (generation : UInt32)
      (held : α × Bool) (hheld : command.held? = some held)
      (hempty : store.contents[index]? = some (generation, none))
      (hfree : store.free = index :: after.free)
      (hcontents : after.contents = store.contents.set index (generation, some held))
      (hretired : after.retired = store.retired) :
      Effect store command (.stored ⟨index, generation⟩) after
  | extend {command : StoreCommand α} {after : Store α} (held : α × Bool)
      (hheld : command.held? = some held) (hfree : store.free = []) (hafter : after.free = [])
      (hcontents : after.contents = store.contents ++ [(0, some held)])
      (hretired : after.retired = store.retired) :
      Effect store command (.stored ⟨store.contents.length, 0⟩) after
  | vacate {after : Store α} (handle : Handle) (value : α) (pending : Bool)
      (hlive : store.contents[handle.index]? = some (handle.generation, some (value, pending)))
      (hgeneration : handle.generation.toNat + 1 < 0x100000000)
      (hfree : after.free = handle.index :: store.free)
      (hcontents : after.contents = store.contents.set handle.index (handle.generation + 1, none))
      (hretired : after.retired = store.retired) :
      Effect store (.release handle) (.released (some value)) after
  | retire {after : Store α} (handle : Handle) (value : α) (pending : Bool)
      (hlive : store.contents[handle.index]? = some (handle.generation, some (value, pending)))
      (hgeneration : 0x100000000 ≤ handle.generation.toNat + 1) (hfree : after.free = store.free)
      (hcontents : after.contents = store.contents.set handle.index (handle.generation, none))
      (hretired : after.retired = store.retired + 1) :
      Effect store (.release handle) (.released (some value)) after
  | refuse (handle : Handle) (hlive : store.live? handle = none) :
      Effect store (.release handle) (.released none) store

theorem effect_insert {store after : Store α} {command : StoreCommand α} {node : Node α}
    (hempty : ∀ index ∈ store.free, ∃ generation, store.contents[index]? = some (generation, none))
    (hheld : command.held? = some (node.value, decide (node.links ≠ .detached)))
    (hcontents : after.contents = (store.insert node).2.contents)
    (hfree : after.free = (store.insert node).2.free)
    (hretired : after.retired = (store.insert node).2.retired) :
    Effect store command (.stored (store.insert node).1) after := by
  unfold insert at hcontents hfree hretired ⊢
  cases hcells : store.free with
  | nil =>
      simp only [hcells, Store.extend] at hcontents hfree hretired ⊢
      have hlength : store.cells.length = store.contents.length := by simp [contents]
      rw [hlength]
      refine .extend _ hheld hcells hfree ?_ hretired
      rw [hcontents, contents, List.map_append]
      rfl
  | cons index free =>
      obtain ⟨generation, hindex⟩ := hempty index (by simp [hcells])
      have hcell := hindex
      rw [contents, List.getElem?_map, Option.map_eq_some_iff] at hcell
      obtain ⟨cell, hcell, hcontent⟩ := hcell
      have hgeneration : cell.generation = generation := congrArg Prod.fst hcontent
      simp only [hcells, hcell, hgeneration] at hcontents hfree hretired ⊢
      refine .reuse index generation _ hheld hindex (by rw [hcells, hfree]) ?_ hretired
      rw [hcontents, contents, List.map_set]
      rfl

theorem contents_vacate (store : Store α) (index : Nat) (generation : UInt32) :
    (store.vacate index generation).contents =
      store.contents.set index
        (if generation.toNat + 1 < 0x100000000 then (generation + 1, none)
          else (generation, none)) := by
  unfold vacate
  split
  next =>
    rw [contents, List.map_set]
    rfl
  next =>
    rw [contents, List.map_set]
    rfl

theorem effect_vacate {store after : Store α} {handle : Handle} {value : α} {links : Links}
    (hlive : store.live? handle = some ⟨value, links⟩)
    (hcontents : after.contents = (store.vacate handle.index handle.generation).contents)
    (hfree : after.free = (store.vacate handle.index handle.generation).free)
    (hretired : after.retired = (store.vacate handle.index handle.generation).retired) :
    Effect store (.release handle) (.released (some value)) after := by
  have hcontent := (contents_eq_some_iff store handle value _).mpr ⟨links, hlive, rfl⟩
  rw [contents_vacate] at hcontents
  unfold vacate at hfree hretired
  split at hcontents
  next hlt =>
    rw [if_pos hlt] at hfree hretired
    exact .vacate handle value _ hcontent hlt hfree hcontents hretired
  next hge =>
    rw [if_neg hge] at hfree hretired
    exact .retire handle value _ hcontent (Nat.not_lt.mp hge) hfree hcontents hretired

/-- Every command has one of the effects. -/
theorem effect_step {store : Store α} {ledger : Ledger α} (hrepresents : Represents store ledger)
    (command : StoreCommand α) :
    Effect store command (store.step command).1 (store.step command).2 := by
  cases command with
  | pushFront value =>
      exact effect_insert hrepresents.free_empty rfl (map_content_withPrev _ _ _) rfl rfl
  | insertDetached value => exact effect_insert hrepresents.free_empty rfl rfl rfl rfl
  | release handle =>
      rw [step, release]
      split
      next hlive => exact .refuse handle hlive
      next value hlive => exact effect_vacate hlive rfl rfl rfl
      next value prev next hlive =>
        refine effect_vacate hlive ?_ rfl rfl
        rw [contents, unlink, map_content_withPrev, map_content_withNext, contents]

theorem lt_next_generation {generation : UInt32} (hnext : generation.toNat + 1 < 0x100000000) :
    generation < generation + 1 := by
  rw [UInt32.lt_iff_toNat_lt, UInt32.toNat_add]
  change _ < (generation.toNat + 1) % 0x100000000
  omega

theorem eq_last_generation {generation : UInt32} (hlast : 0x100000000 ≤ generation.toNat + 1) :
    generation = 0xFFFFFFFF := by
  have hlt := generation.toNat_lt
  apply UInt32.toNat_inj.mp
  change generation.toNat = 0xFFFFFFFF
  omega

/-- What a command does to one cell and its place among the free ones: nothing,
or the cell is filled and its handle handed out, or it is emptied, for a later
generation or for good. -/
inductive Turn (store after : Store α) (reply : StoreReply α) (index : Nat) : Prop
  | keep (hcontent : after.contents[index]? = store.contents[index]?)
      (hfree : index ∈ after.free ↔ index ∈ store.free)
      (hother : ∀ handle, reply.issued? = some handle → handle.index ≠ index)
  | fill (generation : UInt32) (held : α × Bool)
      (hissued : reply.issued? = some ⟨index, generation⟩)
      (hempty : store.contents[index]? = some (generation, none) ∧ index ∈ store.free ∨
        store.contents[index]? = none)
      (hcontent : after.contents[index]? = some (generation, some held))
      (hfree : index ∉ after.free)
  | vacate (generation later : UInt32) (held : α × Bool) (hissued : reply.issued? = none)
      (hlive : store.contents[index]? = some (generation, some held)) (hlater : generation < later)
      (hcontent : after.contents[index]? = some (later, none)) (hfree : index ∈ after.free)
  | retire (generation : UInt32) (held : α × Bool) (hissued : reply.issued? = none)
      (hlive : store.contents[index]? = some (generation, some held))
      (hcontent : after.contents[index]? = some (generation, none)) (hfree : index ∉ after.free)
      (hlast : generation = 0xFFFFFFFF)

theorem Effect.turn {store after : Store α} {command : StoreCommand α} {reply : StoreReply α}
    (heffect : Effect store command reply after) (hnodup : store.free.Nodup)
    (hempty : ∀ index ∈ store.free, ∃ generation, store.contents[index]? = some (generation, none))
    (index : Nat) : Turn store after reply index := by
  cases heffect with
  | reuse filled generation held _ hcontent hfree hcontents =>
      have hlt := (List.getElem?_eq_some_iff.mp hcontent).1
      rw [hfree, List.nodup_cons] at hnodup
      by_cases hindex : index = filled
      · subst index
        refine .fill generation held rfl (Or.inl ⟨hcontent, by simp [hfree]⟩) ?_ hnodup.1
        rw [hcontents, List.getElem?_set_self hlt]
      · refine .keep ?_ (by simp [hfree, hindex]) ?_
        · rw [hcontents, List.getElem?_set_ne (Ne.symm hindex)]
        · rintro _ ⟨⟩
          exact Ne.symm hindex
  | extend held _ hfree hafter hcontents =>
      by_cases hindex : index = store.contents.length
      · subst index
        refine .fill 0 held rfl (Or.inr (List.getElem?_eq_none (Nat.le_refl _))) ?_
          (by simp [hafter])
        rw [hcontents, List.getElem?_concat_length]
      · refine .keep ?_ (by simp [hfree, hafter]) ?_
        · rw [hcontents, List.getElem?_append, List.getElem?_singleton]
          grind
        · rintro _ ⟨⟩
          exact Ne.symm hindex
  | vacate handle value pending hlive hgeneration hfree hcontents =>
      have hlt := (List.getElem?_eq_some_iff.mp hlive).1
      by_cases hindex : index = handle.index
      · subst index
        refine .vacate handle.generation (handle.generation + 1) _ rfl hlive ?_ ?_ (by simp [hfree])
        · exact lt_next_generation hgeneration
        · rw [hcontents, List.getElem?_set_self hlt]
      · refine .keep ?_ (by simp [hfree, hindex]) (by rintro _ ⟨⟩)
        rw [hcontents, List.getElem?_set_ne (Ne.symm hindex)]
  | retire handle value pending hlive hgeneration hfree hcontents =>
      have hlt := (List.getElem?_eq_some_iff.mp hlive).1
      by_cases hindex : index = handle.index
      · subst index
        refine .retire handle.generation _ rfl hlive ?_ ?_ (eq_last_generation hgeneration)
        · rw [hcontents, List.getElem?_set_self hlt]
        · rw [hfree]
          intro hmem
          obtain ⟨generation, hnone⟩ := hempty _ hmem
          rw [hlive] at hnone
          cases hnone
      · refine .keep ?_ (by rw [hfree]) (by rintro _ ⟨⟩)
        rw [hcontents, List.getElem?_set_ne (Ne.symm hindex)]
  | refuse handle hlive => exact .keep rfl Iff.rfl (by rintro _ ⟨⟩)

theorem turn_step {store : Store α} {ledger : Ledger α} (hrepresents : Represents store ledger)
    (command : StoreCommand α) (index : Nat) :
    Turn store (store.step command).2 (store.step command).1 index :=
  (effect_step hrepresents command).turn hrepresents.free_nodup hrepresents.free_empty index

/-- The handle has been handed out: its cell has gone past its generation, or
has reached it and is not free. -/
def Used (store : Store α) (handle : Handle) : Prop :=
  ∃ generation held, store.contents[handle.index]? = some (generation, held) ∧
    (handle.generation < generation ∨ handle.generation = generation ∧ handle.index ∉ store.free)

/-- The handle names a value. -/
def Names (store : Store α) (handle : Handle) : Prop :=
  ∃ held, store.contents[handle.index]? = some (handle.generation, some held)

/-- The cell is empty and not free: it is not filled again. -/
def Retired (store : Store α) (index : Nat) : Prop :=
  index ∉ store.free ∧ ∃ generation, store.contents[index]? = some (generation, none)

/-- The handle names nothing, and to release it does nothing. -/
structure Forgets (store : Store α) (handle : Handle) : Prop where
  get? : store.get? handle = none
  isPending : store.isPending handle = false
  release : store.release handle = (none, store)

theorem forgets_of_not_names {store : Store α} {handle : Handle} (hnames : ¬ store.Names handle) :
    store.Forgets handle := by
  have hlive : store.live? handle = none := by
    rw [Option.eq_none_iff_forall_ne_some]
    rintro ⟨value, links⟩ hlive
    exact hnames ⟨_, (contents_eq_some_iff store handle value _).mpr ⟨links, hlive, rfl⟩⟩
  exact ⟨by rw [get?, hlive, Option.map_none], by rw [isPending, hlive],
    by rw [Store.release, hlive]⟩

section Turn

variable {store after : Store α} {reply : StoreReply α} {handle : Handle}

/-- A handle that is handed out was never handed out before. -/
theorem Turn.not_used_of_issued (hturn : Turn store after reply handle.index)
    (hissued : reply.issued? = some handle) : ¬ store.Used handle := by
  rintro ⟨current, content, hcontent, hpast⟩
  cases hturn with
  | keep _ _ hother => exact hother handle hissued rfl
  | fill generation held hfilled hempty =>
      rw [hissued, Option.some.injEq] at hfilled
      have hgeneration : handle.generation = generation := congrArg Handle.generation hfilled
      subst generation
      rcases hempty with ⟨hempty, hfree⟩ | hnone
      · rw [hempty] at hcontent
        cases hcontent
        simp [hfree] at hpast
      · rw [hnone] at hcontent
        cases hcontent
  | vacate _ _ _ hnone => simp [hnone] at hissued
  | retire _ _ hnone => simp [hnone] at hissued

theorem Turn.used_of_issued (hturn : Turn store after reply handle.index)
    (hissued : reply.issued? = some handle) : after.Used handle := by
  cases hturn with
  | keep _ _ hother => exact absurd rfl (hother handle hissued)
  | fill generation held hfilled _ hcontent hfree =>
      rw [hissued, Option.some.injEq] at hfilled
      exact ⟨generation, _, hcontent, Or.inr ⟨congrArg Handle.generation hfilled, hfree⟩⟩
  | vacate _ _ _ hnone => simp [hnone] at hissued
  | retire _ _ hnone => simp [hnone] at hissued

/-- The cell of a handle never goes back. -/
theorem Turn.used (hturn : Turn store after reply handle.index) (hused : store.Used handle) :
    after.Used handle := by
  obtain ⟨current, content, hcontent, hpast⟩ := hused
  cases hturn with
  | keep hsame hfree => exact ⟨current, content, hsame.trans hcontent, by rwa [hfree]⟩
  | fill generation held _ hempty hfilled hfree =>
      rcases hempty with ⟨hempty, hmem⟩ | hnone
      · rw [hempty] at hcontent
        cases hcontent
        exact ⟨current, some held, hfilled, Or.inl (by simpa [hmem] using hpast)⟩
      · rw [hnone] at hcontent
        cases hcontent
  | vacate generation later held _ hlive hlater hvacated =>
      rw [hlive] at hcontent
      cases hcontent
      refine ⟨later, none, hvacated, Or.inl ?_⟩
      rcases hpast with hpast | ⟨hsame, -⟩
      · exact UInt32.lt_trans hpast hlater
      · rwa [hsame]
  | retire generation held _ hlive hretired hfree =>
      rw [hlive] at hcontent
      cases hcontent
      exact ⟨current, none, hretired, hpast.imp_right fun hsame => ⟨hsame.1, hfree⟩⟩

/-- Only a handle that is handed out comes to name a value. -/
theorem Turn.names (hturn : Turn store after reply handle.index) (hnames : after.Names handle) :
    store.Names handle ∨ reply.issued? = some handle := by
  obtain ⟨content, hcontent⟩ := hnames
  cases hturn with
  | keep hsame => exact Or.inl ⟨content, hsame.symm.trans hcontent⟩
  | fill generation held hissued _ hfilled =>
      rw [hfilled] at hcontent
      cases hcontent
      exact Or.inr hissued
  | vacate _ _ _ _ _ _ hvacated => simp [hvacated] at hcontent
  | retire _ _ _ _ hretired => simp [hretired] at hcontent

theorem Turn.retired {index : Nat} (hturn : Turn store after reply index)
    (hretired : store.Retired index) :
    after.Retired index ∧ ∀ handle, reply.issued? = some handle → handle.index ≠ index := by
  obtain ⟨hnot, generation, hempty⟩ := hretired
  cases hturn with
  | keep hsame hfree hother => exact ⟨⟨by rwa [hfree], generation, hsame.trans hempty⟩, hother⟩
  | fill _ _ _ hcases =>
      rcases hcases with ⟨-, hmem⟩ | hnone
      · exact absurd hmem hnot
      · simp [hnone] at hempty
  | vacate _ _ _ _ hlive => simp [hlive] at hempty
  | retire _ _ _ hlive => simp [hlive] at hempty

end Turn

/-- A run hands out no handle twice, and none that was handed out before it. -/
theorem nodup_issued_run {store : Store α} {ledger : Ledger α}
    (hrepresents : Represents store ledger) (commands : List (StoreCommand α)) :
    (issued (store.run commands).1).Nodup ∧
      ∀ handle ∈ issued (store.run commands).1, ¬ store.Used handle := by
  induction commands generalizing store ledger with
  | nil => exact ⟨List.nodup_nil, fun handle hmem => absurd hmem List.not_mem_nil⟩
  | cons command rest ih =>
      obtain ⟨middle, -, hmiddle⟩ := step_refines store ledger command hrepresents
      obtain ⟨hrest, hfresh⟩ := ih hmiddle
      have hturn := turn_step hrepresents command
      rw [run, issued_cons]
      refine ⟨?_, ?_⟩
      · -- What the command hands out is used from then on, and the rest hands out no used handle.
        cases hissued : (store.step command).1.issued? with
        | none => exact hrest
        | some handle =>
            refine List.nodup_cons.mpr ⟨?_, hrest⟩
            intro hmem
            exact hfresh handle hmem ((hturn handle.index).used_of_issued hissued)
      · intro handle hmem hused
        rcases List.mem_append.mp hmem with hfirst | hlater
        · exact (hturn handle.index).not_used_of_issued (Option.mem_toList.mp hfirst) hused
        · exact hfresh handle hlater ((hturn handle.index).used hused)

/-- A handle that was handed out and names nothing names nothing later. -/
theorem not_names_run {store : Store α} {ledger : Ledger α} (hrepresents : Represents store ledger)
    (commands : List (StoreCommand α)) {handle : Handle} (hused : store.Used handle)
    (hnames : ¬ store.Names handle) : ¬ (store.run commands).2.Names handle := by
  induction commands generalizing store ledger with
  | nil => exact hnames
  | cons command rest ih =>
      obtain ⟨middle, -, hmiddle⟩ := step_refines store ledger command hrepresents
      have hturn := turn_step hrepresents command handle.index
      refine ih hmiddle (hturn.used hused) ?_
      intro hlater
      rcases hturn.names hlater with hearlier | hissued
      · exact hnames hearlier
      · exact hturn.not_used_of_issued hissued hused

theorem retired_run {store : Store α} {ledger : Ledger α} (hrepresents : Represents store ledger)
    (commands : List (StoreCommand α)) {index : Nat} (hretired : store.Retired index) :
    (store.run commands).2.Retired index ∧
      ∀ handle ∈ issued (store.run commands).1, handle.index ≠ index := by
  induction commands generalizing store ledger with
  | nil => exact ⟨hretired, fun handle hmem => absurd hmem List.not_mem_nil⟩
  | cons command rest ih =>
      obtain ⟨middle, -, hmiddle⟩ := step_refines store ledger command hrepresents
      obtain ⟨hnext, hother⟩ := (turn_step hrepresents command index).retired hretired
      obtain ⟨hlast, hothers⟩ := ih hmiddle hnext
      refine ⟨hlast, ?_⟩
      intro handle hmem
      rw [run, issued_cons, List.mem_append] at hmem
      rcases hmem with hfirst | hlater
      · exact hother handle (Option.mem_toList.mp hfirst)
      · exact hothers handle hlater

/-- What a release leaves behind: the handle is used and names nothing, and
after the last generation its cell is retired. -/
theorem forgotten_of_release {store released : Store α} {ledger : Ledger α} {handle : Handle}
    {value : α} (hrepresents : Represents store ledger)
    (hrelease : store.release handle = (some value, released)) :
    released.Used handle ∧ ¬ released.Names handle ∧
      (handle.generation = 0xFFFFFFFF →
        released.retired = store.retired + 1 ∧ released.Retired handle.index) := by
  have heffect := effect_step hrepresents (.release handle)
  simp only [step, hrelease] at heffect
  cases heffect with
  | vacate _ _ pending hlive hgeneration hfree hcontents =>
      have hcontent : released.contents[handle.index]? = some (handle.generation + 1, none) := by
        rw [hcontents, List.getElem?_set_self (List.getElem?_eq_some_iff.mp hlive).1]
      refine ⟨⟨_, none, hcontent, Or.inl (lt_next_generation hgeneration)⟩, ?_, ?_⟩
      · rintro ⟨held, hheld⟩
        simp [hcontent] at hheld
      · intro hlast
        simp [hlast] at hgeneration
  | retire _ _ pending hlive hgeneration hfree hcontents hretired =>
      have hcontent : released.contents[handle.index]? = some (handle.generation, none) := by
        rw [hcontents, List.getElem?_set_self (List.getElem?_eq_some_iff.mp hlive).1]
      have hnot : handle.index ∉ released.free := by
        intro hmem
        rw [hfree] at hmem
        obtain ⟨generation, hempty⟩ := hrepresents.free_empty _ hmem
        simp [hlive] at hempty
      refine ⟨⟨_, none, hcontent, Or.inr ⟨rfl, hnot⟩⟩, ?_, fun _ => ⟨hretired, hnot, _, hcontent⟩⟩
      rintro ⟨held, hheld⟩
      simp [hcontent] at hheld

/-- Handles are never reissued. A run hands out no handle twice. Once a handle
has been released, it names nothing in any later state, however often its cell
is filled again. A cell that is emptied in its last generation is retired: it is
never free again, and no handle that is handed out later names it. -/
theorem handles_never_reissued (commands : List (StoreCommand α)) :
    (issued (empty.run commands).1).Nodup ∧
      ∀ (handle : Handle) (value : α) (released : Store α),
        (empty.run commands).2.release handle = (some value, released) →
        ∀ later : List (StoreCommand α),
          (released.run later).2.Forgets handle ∧ handle ∉ issued (released.run later).1 ∧
          (handle.generation = 0xFFFFFFFF →
            released.retired = (empty.run commands).2.retired + 1 ∧
              handle.index ∉ (released.run later).2.free ∧
              ∀ other ∈ issued (released.run later).1, other.index ≠ handle.index) := by
  obtain ⟨ledger, -, hrepresents⟩ := run_refines empty Ledger.empty commands represents_empty
  refine ⟨(nodup_issued_run represents_empty commands).1, ?_⟩
  intro handle value released hrelease later
  obtain ⟨hused, hnames, hlast⟩ := forgotten_of_release hrepresents hrelease
  obtain ⟨after, -, hafter⟩ := step_refines _ ledger (.release handle) hrepresents
  simp only [step, hrelease] at hafter
  refine ⟨forgets_of_not_names (not_names_run hafter later hused hnames), ?_, ?_⟩
  · intro hmem
    exact (nodup_issued_run hafter later).2 handle hmem hused
  · intro hgeneration
    obtain ⟨hcount, hretired⟩ := hlast hgeneration
    obtain ⟨hlater, hother⟩ := retired_run hafter later hretired
    exact ⟨hcount, hlater.1, hother⟩

/-- A value is stored and released again, once in each of the first generations
of the first cell. -/
def wear (value : α) : (count : Nat) → List (StoreCommand α)
  | 0 => []
  | count + 1 => wear value count ++ [.insertDetached value, .release ⟨0, .ofNat count⟩]

theorem run_append (store : Store α) (first second : List (StoreCommand α)) :
    (store.run (first ++ second)).2 = ((store.run first).2.run second).2 := by
  induction first generalizing store with
  | nil => rfl
  | cons command rest ih => exact ih (store.step command).2

theorem run_wear (value : α) {count : Nat} (hcount : count + 1 < 0x100000000) :
    (empty.run (wear value (count + 1))).2 = ⟨[⟨.ofNat (count + 1), none⟩], [0], 0, none, 0⟩ := by
  induction count with
  | zero => rfl
  | succ count ih =>
      rw [wear, run_append, ih (by omega)]
      simp [run, step, insertDetached, insert, release, live?, vacate]
      omega

/-- The first cell is worn out: its last value is released, and whatever is
stored later goes elsewhere. -/
theorem handles_never_reissued_worn_out :
    ∃ released : Store Nat,
      (empty.run (wear 7 0xFFFFFFFF ++ [.insertDetached 7])).2.release ⟨0, 0xFFFFFFFF⟩ =
        (some 7, released) ∧
      ∀ later : List (StoreCommand Nat), (released.run later).2.Forgets ⟨0, 0xFFFFFFFF⟩ ∧
        ∀ other ∈ issued (released.run later).1, other.index ≠ 0 := by
  have hworn : (empty.run (wear 7 0xFFFFFFFF ++ [.insertDetached 7])).2 =
      (⟨[⟨0xFFFFFFFF, some ⟨7, .detached⟩⟩], [], 0, none, 0⟩ : Store Nat) := by
    rw [run_append, run_wear 7 (by decide)]
    rfl
  have hrelease : (empty.run (wear 7 0xFFFFFFFF ++ [.insertDetached 7])).2.release ⟨0, 0xFFFFFFFF⟩ =
      (some 7, (⟨[⟨0xFFFFFFFF, none⟩], [], 1, none, 0⟩ : Store Nat)) := by
    rw [hworn]
    rfl
  refine ⟨_, hrelease, ?_⟩
  intro later
  obtain ⟨hforgets, -, hlast⟩ := (handles_never_reissued _).2 _ _ _ hrelease later
  exact ⟨hforgets, (hlast rfl).2.2⟩

end Store

end Residual
