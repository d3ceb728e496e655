import Mathlib.Data.Finset.Card
import Zit.Lib.Progress

/-!
# Items asked for through windows

A set of items that workers are asked for: a worker that is awake has up to `limit` of them at a time
and is given more as it answers, as long as there are items that nobody has been asked for. A group
is closed once its items are all done. Every step makes `left` one smaller (`Step.left`), and when no
step is possible everything is done (`Sound.finished`), in whatever order the workers wake and answer.
-/

set_option autoImplicit false
set_option linter.unusedSectionVars false

namespace Lib

structure Window (ι β κ : Type) where
  workers : Finset ι
  items : Finset β
  groups : Finset κ
  group : β → κ
  limit : Nat

namespace Window

variable {ι β κ : Type}

/-- Which items each worker has been asked for and has not answered, and what has been done. -/
structure State (ι β κ : Type) where
  asked : ι → Finset β
  done : Finset β
  awake : Finset ι
  closed : Finset κ

inductive Event (ι β κ : Type)
  | wake (i : ι)
  | answer (i : ι) (b : β)
  | close (k : κ)

variable [DecidableEq ι] [DecidableEq β] [DecidableEq κ]

namespace State

variable (s : State ι β κ)

/-- A worker is asked for more. -/
def give (i : ι) (more : Finset β) : State ι β κ :=
  { s with asked := Function.update s.asked i (s.asked i ∪ more) }

/-- A worker has answered. -/
def take (i : ι) (b : β) : State ι β κ :=
  { s with
    asked := Function.update s.asked i ((s.asked i).erase b)
    done := insert b s.done }

def wake (i : ι) : State ι β κ := { s with awake := insert i s.awake }

def close (k : κ) : State ι β κ := { s with closed := insert k s.closed }

variable {s} {i j : ι} {more : Finset β} {b : β}

theorem give_self : (s.give i more).asked i = s.asked i ∪ more := Function.update_self ..

theorem give_empty : s.give i ∅ = s := by
  rw [give, Finset.union_empty, Function.update_eq_self]

theorem give_of_ne (h : j ≠ i) : (s.give i more).asked j = s.asked j := Function.update_of_ne h ..

theorem take_self : (s.take i b).asked i = (s.asked i).erase b := Function.update_self ..

theorem take_of_ne (h : j ≠ i) : (s.take i b).asked j = s.asked j := Function.update_of_ne h ..

end State

variable (w : Window ι β κ)

/-- The items that are neither done nor asked for. -/
def free (s : State ι β κ) : Finset β :=
  w.items.filter fun b => b ∉ s.done ∧ ∀ i ∈ w.workers, b ∉ s.asked i

/-- What a worker with `n` places is given: as much as there is. -/
def Tops (s : State ι β κ) (n : Nat) (more : Finset β) : Prop :=
  more ⊆ w.free s ∧ more.card = min n (w.free s).card

inductive Step : State ι β κ → Event ι β κ → State ι β κ → Prop
  | wake {s : State ι β κ} {i : ι} {more : Finset β} (hi : i ∈ w.workers) (hne : i ∉ s.awake)
      (hmore : w.Tops (s.wake i) w.limit more) : Step s (.wake i) ((s.wake i).give i more)
  | answer {s : State ι β κ} {i : ι} {b : β} {more : Finset β} (hi : i ∈ w.workers)
      (hb : b ∈ s.asked i)
      (hmore : w.Tops (s.take i b) (w.limit - ((s.asked i).card - 1)) more) :
      Step s (.answer i b) ((s.take i b).give i more)
  | close {s : State ι β κ} {k : κ} (hk : k ∈ w.groups) (hne : k ∉ s.closed)
      (hall : ∀ b ∈ w.items, w.group b = k → b ∈ s.done) : Step s (.close k) (s.close k)

/-- How many steps are left. -/
def left (s : State ι β κ) : Nat :=
  (w.items \ s.done).card + (w.groups \ s.closed).card + (w.workers \ s.awake).card

/-- Nobody is asked for what another one has, or for what is done; who is asleep has nothing. -/
structure Sound (s : State ι β κ) : Prop where
  done : s.done ⊆ w.items
  asked : ∀ i ∈ w.workers, s.asked i ⊆ w.items
  undone : ∀ i ∈ w.workers, ∀ b ∈ s.asked i, b ∉ s.done
  apart : ∀ i ∈ w.workers, ∀ j ∈ w.workers, i ≠ j → ∀ b ∈ s.asked i, b ∉ s.asked j
  awake : s.awake ⊆ w.workers
  asleep : ∀ i ∈ w.workers, i ∉ s.awake → s.asked i = ∅
  closed : s.closed ⊆ w.groups

/-- A worker that is awake has as much as it may have, or nothing is free. -/
structure Fair (s : State ι β κ) : Prop extends w.Sound s where
  full : ∀ i ∈ s.awake, (s.asked i).card ≤ w.limit ∧
    ((s.asked i).card < w.limit → w.free s = ∅)

variable {w} {s s' : State ι β κ} {i : ι} {b : β} {more : Finset β}

theorem mem_free : b ∈ w.free s ↔
    b ∈ w.items ∧ b ∉ s.done ∧ ∀ i ∈ w.workers, b ∉ s.asked i := Finset.mem_filter

theorem mem_free_iff : b ∈ w.free s ↔
    b ∈ w.items ∧ b ∉ s.done ∧ ¬∃ i ∈ w.workers, b ∈ s.asked i := by
  simp only [mem_free, not_exists, not_and]

/-! ## Giving and taking -/

/-- Who is asked for what, after more has been given. -/
theorem asked_give (hi : i ∈ w.workers) : (∃ j ∈ w.workers, b ∈ (s.give i more).asked j) ↔
    (∃ j ∈ w.workers, b ∈ s.asked j) ∨ b ∈ more := by
  constructor
  · rintro ⟨j, hj, hb⟩
    by_cases hji : j = i
    · rw [hji, State.give_self, Finset.mem_union] at hb
      exact hb.imp_left fun hb => ⟨i, hi, hb⟩
    · rw [State.give_of_ne hji] at hb
      exact .inl ⟨j, hj, hb⟩
  · rintro (⟨j, hj, hb⟩ | hb)
    · refine ⟨j, hj, ?_⟩
      by_cases hji : j = i
      · rw [hji, State.give_self, Finset.mem_union]
        exact .inl (hji ▸ hb)
      · rwa [State.give_of_ne hji]
    · refine ⟨i, hi, ?_⟩
      rw [State.give_self, Finset.mem_union]
      exact .inr hb

/-- An answer leaves who is asked for the other items. -/
theorem asked_take {c : β} (hc : c ≠ b) : (∃ j ∈ w.workers, c ∈ (s.take i b).asked j) ↔
    ∃ j ∈ w.workers, c ∈ s.asked j := by
  refine exists_congr fun j => and_congr_right fun _ => ?_
  by_cases hji : j = i
  · rw [hji, State.take_self, Finset.mem_erase]
    exact and_iff_right hc
  · rw [State.take_of_ne hji]

theorem free_give (hi : i ∈ w.workers) : w.free (s.give i more) = w.free s \ more := by
  ext b
  rw [Finset.mem_sdiff, mem_free_iff, mem_free_iff, asked_give hi, not_or, and_assoc, and_assoc]
  exact Iff.rfl

/-- An item that is answered was not free, and is not free again. -/
theorem free_take (hi : i ∈ w.workers) (hb : b ∈ s.asked i) : w.free (s.take i b) = w.free s := by
  ext c
  rw [mem_free_iff, mem_free_iff]
  by_cases hcb : c = b
  · subst hcb
    exact iff_of_false (fun h => h.2.1 (Finset.mem_insert_self c _)) fun h => h.2.2 ⟨i, hi, hb⟩
  · rw [asked_take hcb, State.take, Finset.mem_insert, or_iff_right hcb]

theorem Sound.wake (h : w.Sound s) (hi : i ∈ w.workers) : w.Sound (s.wake i) where
  done := h.done
  asked := h.asked
  undone := h.undone
  apart := h.apart
  awake := Finset.insert_subset hi h.awake
  asleep j hj hne := h.asleep j hj fun hj' => hne (Finset.mem_insert_of_mem hj')
  closed := h.closed

theorem Sound.take (h : w.Sound s) (hi : i ∈ w.workers) (hb : b ∈ s.asked i) :
    w.Sound (s.take i b) := by
  have hsub (j : ι) : (s.take i b).asked j ⊆ s.asked j := by
    by_cases hji : j = i
    · rw [hji, State.take_self]
      exact Finset.erase_subset _ _
    · rw [State.take_of_ne hji]
  refine ⟨Finset.insert_subset (h.asked i hi hb) h.done, fun j hj => (hsub j).trans (h.asked j hj),
    fun j hj c hc hdone => ?_, fun j hj k hk hne c hc hc' => ?_, h.awake, fun j hj hne => ?_,
    h.closed⟩
  · rcases Finset.mem_insert.1 hdone with rfl | hdone
    · by_cases hji : j = i
      · rw [hji, State.take_self] at hc
        exact absurd hc (Finset.notMem_erase _ _)
      · exact h.apart j hj i hi hji c (hsub j hc) hb
    · exact h.undone j hj c (hsub j hc) hdone
  · exact h.apart j hj k hk hne c (hsub j hc) (hsub k hc')
  · have := hsub j
    rw [h.asleep j hj hne] at this
    exact Finset.subset_empty.1 this

theorem Sound.give (h : w.Sound s) (hi : i ∈ w.workers) (hawake : i ∈ s.awake)
    (hmore : more ⊆ w.free s) : w.Sound (s.give i more) := by
  have hcases {j : ι} {c : β} (hc : c ∈ (s.give i more).asked j) :
      c ∈ s.asked j ∨ j = i ∧ c ∈ w.free s := by
    by_cases hji : j = i
    · subst hji
      rw [State.give_self, Finset.mem_union] at hc
      exact hc.imp id fun hc => ⟨rfl, hmore hc⟩
    · rw [State.give_of_ne hji] at hc
      exact .inl hc
  refine ⟨h.done, fun j hj c hc => ?_, fun j hj c hc => ?_, fun j hj k hk hne c hc hc' => ?_,
    h.awake, fun j hj hne => ?_, h.closed⟩
  · rcases hcases hc with hc | ⟨-, hc⟩
    · exact h.asked j hj hc
    · exact (mem_free.1 hc).1
  · rcases hcases hc with hc | ⟨-, hc⟩
    · exact h.undone j hj c hc
    · exact (mem_free.1 hc).2.1
  · rcases hcases hc with hold | ⟨hji, hfree⟩
    · rcases hcases hc' with hold' | ⟨-, hfree⟩
      · exact h.apart j hj k hk hne c hold hold'
      · exact (mem_free.1 hfree).2.2 j hj hold
    · rcases hcases hc' with hold' | ⟨hki, -⟩
      · exact (mem_free.1 hfree).2.2 k hk hold'
      · exact hne (hji.trans hki.symm)
  · have hji : j ≠ i := fun hji => hne (hji ▸ hawake)
    rw [State.give_of_ne hji]
    exact h.asleep j hj hne

/-! ## Steps -/

/-- A worker that is given as much as there is has a full window, or nothing is free. -/
theorem Fair.give (h : w.Sound s) (hi : i ∈ w.workers) (hawake : i ∈ s.awake) {n : Nat}
    (hn : (s.asked i).card + n = w.limit) (hmore : w.Tops s n more)
    (hothers : ∀ j ∈ s.awake, j ≠ i → (s.asked j).card ≤ w.limit ∧
      ((s.asked j).card < w.limit → w.free s = ∅)) : w.Fair (s.give i more) := by
  refine ⟨h.give hi hawake hmore.1, fun j hj => ?_⟩
  rw [free_give hi]
  by_cases hji : j = i
  · subst hji
    have hcard : ((s.give j more).asked j).card = (s.asked j).card + more.card := by
      rw [State.give_self]
      refine Finset.card_union_of_disjoint (Finset.disjoint_left.2 fun c hc hc' => ?_)
      exact (mem_free.1 (hmore.1 hc')).2.2 j hi hc
    have hcount := hmore.2
    refine ⟨by omega, fun hlt => ?_⟩
    have hall : more = w.free s := Finset.eq_of_subset_of_card_le hmore.1 (by omega)
    rw [hall, Finset.sdiff_self]
  · rw [State.give_of_ne hji]
    obtain ⟨hle, hfree⟩ := hothers j hj hji
    exact ⟨hle, fun hlt => by rw [hfree hlt, Finset.empty_sdiff]⟩

theorem Fair.step (h : w.Fair s) {e : Event ι β κ} (hs : w.Step s e s') : w.Fair s' := by
  cases hs with
  | @wake i more hi hne hmore =>
    refine Fair.give (h.toSound.wake hi) hi (Finset.mem_insert_self _ _) ?_ hmore
      fun j hj hji => ?_
    · rw [State.wake, h.asleep i hi hne, Finset.card_empty, Nat.zero_add]
    · exact h.full j ((Finset.mem_insert.1 hj).resolve_left hji)
  | @answer i b more hi hb hmore =>
    have hawake : i ∈ s.awake := by
      by_contra hne
      rw [h.asleep i hi hne] at hb
      exact absurd hb (Finset.notMem_empty _)
    have hpos : 0 < (s.asked i).card := Finset.card_pos.2 ⟨b, hb⟩
    refine Fair.give (h.toSound.take hi hb) hi hawake ?_ hmore fun j hj hji => ?_
    · have := (h.full i hawake).1
      rw [State.take_self, Finset.card_erase_of_mem hb]
      omega
    · rw [free_take hi hb, State.take_of_ne hji]
      exact h.full j hj
  | @close k hk hne hall =>
    exact ⟨⟨h.done, h.asked, h.undone, h.apart, h.awake, h.asleep,
      Finset.insert_subset hk h.closed⟩, h.full⟩

theorem card_sdiff_insert {α : Type} [DecidableEq α] {u t : Finset α} {x : α} (hx : x ∈ u)
    (hne : x ∉ t) : (u \ insert x t).card + 1 = (u \ t).card := by
  rw [Finset.sdiff_insert]
  exact Finset.card_erase_add_one (Finset.mem_sdiff.2 ⟨hx, hne⟩)

/-- Every step is one step less. -/
theorem Step.left (h : w.Fair s) {e : Event ι β κ} (hs : w.Step s e s') :
    w.left s' + 1 = w.left s := by
  cases hs with
  | @wake i more hi hne hmore =>
    have := card_sdiff_insert hi hne
    simp only [Window.left, State.give, State.wake]
    omega
  | @answer i b more hi hb hmore =>
    have := card_sdiff_insert (h.asked i hi hb) (h.undone i hi b hb)
    simp only [Window.left, State.give, State.take]
    omega
  | @close k hk hne hall =>
    have := card_sdiff_insert hk hne
    simp only [Window.left, State.close]
    omega

/-- When somebody who is awake has nothing to answer, nothing is free. -/
theorem Fair.idle (h : w.Fair s) (hlimit : 0 < w.limit) (hi : i ∈ s.awake) (hasked : s.asked i = ∅) :
    w.free s = ∅ := (h.full i hi).2 (by rwa [hasked])

/-- When nothing is free, nobody has anything to answer and no group can be closed, everything is
done. -/
theorem Sound.finished (h : w.Sound s) (hfree : w.free s = ∅)
    (hasked : ∀ i ∈ w.workers, s.asked i = ∅)
    (hopen : ∀ k ∈ w.groups, k ∉ s.closed → ∃ b ∈ w.items, w.group b = k ∧ b ∉ s.done) :
    s.done = w.items ∧ s.closed = w.groups := by
  have hdone : s.done = w.items := by
    refine h.done.antisymm fun b hb => ?_
    by_contra hne
    have hmem : b ∈ w.free s :=
      mem_free.2 ⟨hb, hne, fun j hj => by rw [hasked j hj]; exact Finset.notMem_empty b⟩
    rw [hfree] at hmem
    exact Finset.notMem_empty b hmem
  refine ⟨hdone, h.closed.antisymm fun k hk => ?_⟩
  by_contra hne
  obtain ⟨b, hb, -, hundone⟩ := hopen k hk hne
  exact hundone (hdone ▸ hb)

end Window

end Lib
