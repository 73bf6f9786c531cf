import Residual.Store.Basic
import Mathlib.Data.List.Basic

/-!
# Stretches of the pending list

The pending list runs through the cells by links in both directions. A stretch
of it is described by where it is entered and left: the link that leads in, the
cell that the first link back names, the last cell and the link that leads out.
Stretches can be joined, cut and relinked at either end without a look at the
cells between.
-/

namespace Residual

variable {α : Type}

/-- The cells of some handles. -/
def indices (entries : List (Handle × α)) : List Nat := entries.map fun entry => entry.1.index

/-- The cells hold a stretch of the pending list with the given entries. It is
entered at `cursor` from `prev` and left to `exit` from `last`. -/
def Segment (cells : List (Cell α)) :
    (prev cursor : Option Nat) → List (Handle × α) → (last exit : Option Nat) → Prop
  | prev, cursor, [], last, exit => prev = last ∧ cursor = exit
  | prev, cursor, (handle, value) :: rest, last, exit =>
    cursor = some handle.index ∧ ∃ next,
      cells[handle.index]? = some ⟨handle.generation, some ⟨value, .linked prev next⟩⟩ ∧
        Segment cells (some handle.index) next rest last exit

/-- The pending list from `cursor` on, where the first link back names `prev`. -/
def Chain (cells : List (Cell α)) (prev cursor : Option Nat) (entries : List (Handle × α)) : Prop :=
  ∃ last, Segment cells prev cursor entries last none

namespace Store

theorem getElem?_withPrev (cells : List (Cell α)) (target prev : Option Nat) (index : Nat) :
    (withPrev cells target prev)[index]? =
      if target = some index then cells[index]?.map (Cell.setPrev prev) else cells[index]? := by
  cases target with
  | none => rfl
  | some position =>
      simp only [withPrev, List.getElem?_modify, Option.some.injEq]
      split <;> simp

theorem getElem?_withNext (cells : List (Cell α)) (target next : Option Nat) (index : Nat) :
    (withNext cells target next)[index]? =
      if target = some index then cells[index]?.map (Cell.setNext next) else cells[index]? := by
  cases target with
  | none => rfl
  | some position =>
      simp only [withNext, List.getElem?_modify, Option.some.injEq]
      split <;> simp

end Store

namespace Segment

open Store

theorem append (cells : List (Cell α)) (front back : List (Handle × α))
    (prev cursor last exit : Option Nat) :
    Segment cells prev cursor (front ++ back) last exit ↔
      ∃ middle next, Segment cells prev cursor front middle next ∧
        Segment cells middle next back last exit := by
  induction front generalizing prev cursor with
  | nil =>
      constructor
      · intro h
        exact ⟨prev, cursor, ⟨rfl, rfl⟩, h⟩
      · rintro ⟨middle, next, ⟨rfl, rfl⟩, h⟩
        exact h
  | cons entry front ih =>
      obtain ⟨handle, value⟩ := entry
      constructor
      · rintro ⟨hcursor, after, hcell, hrest⟩
        obtain ⟨middle, next, hfront, hback⟩ := (ih _ _).mp hrest
        exact ⟨middle, next, ⟨hcursor, after, hcell, hfront⟩, hback⟩
      · rintro ⟨middle, next, ⟨hcursor, after, hcell, hfront⟩, hback⟩
        exact ⟨hcursor, after, hcell, (ih _ _).mpr ⟨middle, next, hfront, hback⟩⟩

/-- A stretch survives every change to cells that are not its own. -/
theorem frame (cells changed : List (Cell α)) (entries : List (Handle × α))
    (prev cursor last exit : Option Nat) (hsegment : Segment cells prev cursor entries last exit)
    (hsame : ∀ index ∈ indices entries, changed[index]? = cells[index]?) :
    Segment changed prev cursor entries last exit := by
  induction entries generalizing prev cursor with
  | nil => exact hsegment
  | cons entry rest ih =>
      obtain ⟨handle, value⟩ := entry
      obtain ⟨hcursor, next, hcell, hrest⟩ := hsegment
      obtain ⟨hfirst, hothers⟩ := List.forall_mem_cons.mp hsame
      exact ⟨hcursor, next, hfirst.trans hcell, ih _ _ hrest hothers⟩

theorem exists_cell (cells : List (Cell α)) (entries : List (Handle × α))
    (prev cursor last exit : Option Nat) (hsegment : Segment cells prev cursor entries last exit)
    (handle : Handle) (value : α) (hentry : (handle, value) ∈ entries) :
    ∃ before after, cells[handle.index]? =
      some ⟨handle.generation, some ⟨value, .linked before after⟩⟩ := by
  obtain ⟨front, back, rfl⟩ := List.append_of_mem hentry
  obtain ⟨middle, next, -, -, after, hcell, -⟩ := (append _ _ _ _ _ _ _).mp hsegment
  exact ⟨middle, after, hcell⟩

theorem last_eq (cells : List (Cell α)) (entries : List (Handle × α))
    (cursor last exit : Option Nat) (hsegment : Segment cells none cursor entries last exit) :
    last = (indices entries).getLast? := by
  rcases List.eq_nil_or_concat' entries with rfl | ⟨front, entry, rfl⟩
  · exact hsegment.1.symm
  · obtain ⟨middle, next, -, -, after, -, rfl, -⟩ := (append _ _ _ _ _ _ _).mp hsegment
    simp [indices]

/-- Relinking the last cell redirects where a stretch leads. An empty stretch
is redirected at its entry. -/
theorem withNext (cells : List (Cell α)) (entries : List (Handle × α))
    (cursor last exit : Option Nat) (target : Option Nat)
    (hsegment : Segment cells none cursor entries last exit)
    (hnodup : (indices entries).Nodup) :
    Segment (Store.withNext cells last target) none (if entries = [] then target else cursor)
      entries last target := by
  rcases List.eq_nil_or_concat' entries with rfl | ⟨front, entry, rfl⟩
  · obtain ⟨rfl, rfl⟩ := hsegment
    exact ⟨rfl, rfl⟩
  · obtain ⟨handle, value⟩ := entry
    obtain ⟨middle, next, hfront, rfl, after, hcell, rfl, rfl⟩ := (append _ _ _ _ _ _ _).mp hsegment
    have hlast : handle.index ∉ indices front := by
      rw [indices, List.map_append, List.nodup_append] at hnodup
      intro hmem
      exact hnodup.2.2 _ hmem handle.index (by simp) rfl
    rw [if_neg (by simp)]
    refine (append _ _ _ _ _ _ _).mpr ⟨middle, some handle.index, ?_, rfl, target, ?_, rfl, rfl⟩
    · apply frame cells _ front _ _ _ _ hfront
      intro index hindex
      rw [getElem?_withNext, if_neg]
      intro heq
      exact hlast (Option.some.inj heq ▸ hindex)
    · rw [getElem?_withNext, if_pos rfl, hcell]
      rfl

end Segment

namespace Chain

open Store

theorem frame (cells changed : List (Cell α)) (prev cursor : Option Nat)
    (entries : List (Handle × α)) (hchain : Chain cells prev cursor entries)
    (hsame : ∀ index ∈ indices entries, changed[index]? = cells[index]?) :
    Chain changed prev cursor entries := by
  obtain ⟨last, hsegment⟩ := hchain
  exact ⟨last, hsegment.frame _ _ _ _ _ _ _ hsame⟩

theorem cursor_eq (cells : List (Cell α)) (entries : List (Handle × α)) (prev cursor : Option Nat)
    (hchain : Chain cells prev cursor entries) : cursor = (indices entries).head? := by
  obtain ⟨last, hsegment⟩ := hchain
  cases entries with
  | nil => exact hsegment.2
  | cons entry rest => exact hsegment.1

/-- Relinking the first cell changes what its link back names. -/
theorem withPrev (cells : List (Cell α)) (entries : List (Handle × α)) (prev cursor : Option Nat)
    (target : Option Nat) (hchain : Chain cells prev cursor entries)
    (hnodup : (indices entries).Nodup) :
    Chain (Store.withPrev cells cursor target) target cursor entries := by
  obtain ⟨last, hsegment⟩ := hchain
  cases entries with
  | nil =>
      obtain ⟨-, rfl⟩ := hsegment
      exact ⟨target, rfl, rfl⟩
  | cons entry rest =>
      obtain ⟨handle, value⟩ := entry
      obtain ⟨rfl, next, hcell, hrest⟩ := hsegment
      have hfirst : handle.index ∉ indices rest := (List.nodup_cons.mp hnodup).1
      refine ⟨last, rfl, next, ?_, ?_⟩
      · rw [getElem?_withPrev, if_pos rfl, hcell]
        rfl
      · apply Segment.frame cells _ rest _ _ _ _ hrest
        intro index hindex
        rw [getElem?_withPrev, if_neg]
        intro heq
        exact hfirst (Option.some.inj heq ▸ hindex)

/-- Taking a member out and linking its neighbours to each other leaves the
list of the others in their order. -/
theorem unlink (cells vacated : List (Cell α)) (front back : List (Handle × α)) (handle : Handle)
    (value : α) (head prev next : Option Nat)
    (hchain : Chain cells none head (front ++ (handle, value) :: back))
    (hnodup : (indices (front ++ (handle, value) :: back)).Nodup)
    (hcell : cells[handle.index]? = some ⟨handle.generation, some ⟨value, .linked prev next⟩⟩)
    (hframe : ∀ index, index ≠ handle.index → vacated[index]? = cells[index]?) :
    Chain (Store.withPrev (Store.withNext vacated prev next) next prev) none
      (if prev = none ∧ head = some handle.index then next else head) (front ++ back) := by
  obtain ⟨last, hsegment⟩ := hchain
  obtain ⟨middle, entry, hfront, rfl, after, hmember, hback⟩ :=
    (Segment.append _ _ _ _ _ _ _).mp hsegment
  rw [hcell] at hmember
  cases hmember
  rw [indices, List.map_append, List.map_cons, List.nodup_append] at hnodup
  obtain ⟨hfrontNodup, hrestNodup, hdisjoint⟩ := hnodup
  obtain ⟨hmemberBack, hbackNodup⟩ := List.nodup_cons.mp hrestNodup
  have hmemberFront : handle.index ∉ indices front := by
    intro hmem
    exact hdisjoint _ hmem _ List.mem_cons_self rfl
  have hprev := hfront.last_eq
  have hnext := Chain.cursor_eq _ _ _ _ ⟨last, hback⟩
  have hhead : (if prev = none ∧ head = some handle.index then next else head) =
      if front = [] then next else head := by
    by_cases hempty : front = []
    · subst front
      rw [if_pos rfl, if_pos ⟨hfront.1.symm, hfront.2⟩]
    · have hsome : prev ≠ none := by
        rw [hprev]
        simpa [indices] using hempty
      rw [if_neg hempty, if_neg fun h => hsome h.1]
  -- First the link out of the front is redirected, then the link back out of the rest.
  have hfrontLinked := (hfront.frame _ vacated _ _ _ _ _ fun index hmem =>
    hframe index fun heq => hmemberFront (heq ▸ hmem)).withNext _ _ _ _ _ next hfrontNodup
  have hbackFramed : Chain (Store.withNext vacated prev next) (some handle.index) next back := by
    refine Chain.frame _ _ _ _ _ ⟨last, hback⟩ ?_
    intro index hmem
    rw [getElem?_withNext, if_neg]
    · exact hframe index fun heq => hmemberBack (heq ▸ hmem)
    · intro heq
      rw [hprev] at heq
      exact hdisjoint _ (List.mem_of_getLast? heq) _ (List.mem_cons_of_mem _ hmem) rfl
  obtain ⟨newLast, hbackLinked⟩ := hbackFramed.withPrev _ _ _ _ prev hbackNodup
  have hfrontFramed := hfrontLinked.frame _
    (Store.withPrev (Store.withNext vacated prev next) next prev)
    _ _ _ _ _ fun index hmem => by
      rw [getElem?_withPrev, if_neg]
      intro heq
      rw [hnext] at heq
      exact hdisjoint _ hmem _ (List.mem_cons_of_mem _ (List.mem_of_mem_head? heq)) rfl
  rw [hhead]
  exact ⟨newLast, (Segment.append _ _ _ _ _ _ _).mpr ⟨prev, next, hfrontFramed, hbackLinked⟩⟩

end Chain

end Residual
