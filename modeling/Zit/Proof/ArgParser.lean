import Zit.ArgParser
import Zit.Lib.Fallible

/-!
# Arguments in any order

What `parse` gives an option depends on the values behind its name and on the free arguments, not on
how these are mixed (`parse_iff`, `parse_interleaved`). A turn stores one value in one option
(`serves_flag`, `serves_named`, `serves_free`); the names, positions and types of the table never
change.
-/

set_option autoImplicit false

namespace Zit.ArgParser

open Lib

variable {F : Type} {c : Floats F} {p p' : ArgParser F} {a b : BaseArg F} {m : Nat}

/-! ## One value for one option -/

/-- `*m = a` -/
def put (p : ArgParser F) (m : Nat) (a : BaseArg F) : ArgParser F :=
  { p with options := p.options.set m a }

/-- The value of a text. -/
def BaseArg.read (c : Floats F) (a : BaseArg F) (name val : Bytes) : Except Exn (Value F) :=
  if a.type = .bool then .ok (.bool true) else convert c a.type name val

/-- The option with one more value. -/
def BaseArg.accept (c : Floats F) (a : BaseArg F) (name val : Bytes) : Except Exn (BaseArg F) := do
  let v ← a.read c name val
  if !a.multi && !a.dst.isEmpty then
    throw (.runtimeError
      s!"Multiple values provided for single value option: {Bencode.rawText a.option}")
  return { a with dst := a.dst ++ [v], provided := true }

/-- An option after a turn: a turn that throws changes nothing. -/
def settle {α : Type} (p : ArgParser F) (m : Nat) (r : α) :
    Except Exn (BaseArg F) → EStateM.Result Exn (ArgParser F) α
  | .ok a => .ok r (p.put m a)
  | .error e => .error e p

theorem store_eq {α : Type} (r : α) (v : Value F) (ha : p.options[m]? = some a) :
    (do setDst m v; change m fun a => { a with provided := true }; return r : ParseM F α) p =
      settle p m r (if !a.multi && !a.dst.isEmpty then .error (.runtimeError
          s!"Multiple values provided for single value option: {Bencode.rawText a.option}")
        else .ok { a with dst := a.dst ++ [v], provided := true }) := by
  have hset : (p.options.modify m fun a => { a with dst := a.dst ++ [v] }).modify m
      (fun a => { a with provided := true }) =
      p.options.set m { a with dst := a.dst ++ [v], provided := true } := by
    rw [List.modify_modify_eq]
    refine List.ext_getElem? fun j => ?_
    rw [List.getElem?_modify, List.getElem?_set]
    by_cases hj : m = j
    · subst hj
      have hlt := (List.getElem?_eq_some_iff.1 ha).1
      simp only [if_true, hlt, ha]
      rfl
    · simp [hj]
  by_cases h : (!a.multi && !a.dst.isEmpty) = true
  · simp only [setDst, deref, change, bind, EStateM.bind, get_run, ha, pure, EStateM.pure, if_pos h]
    rfl
  · simp only [setDst, deref, change, bind, EStateM.bind, get_run, ha, pure, EStateM.pure, if_neg h,
      modify_run, hset]
    rfl

variable {argv : List Bytes} {i : Nat} {name val : Bytes} {k k' : UInt32}

/-- An argument that is its own value, or the name of an option that needs none. -/
theorem turn_self (hname : argv[i]? = some name) (hlookup : lookup name k p = .ok (m, k') p)
    (ha : p.options[m]? = some a)
    (hself : a.type = .bool ∨ (a.position.isSome || a.collecting) = true) :
    turn c argv i k p = settle p m (i, k') (a.accept c name name) := by
  have hargAt : argAt argv i = .ok name := by rw [argAt, hname]
  have hderef : (deref m : ParseM F (BaseArg F)) p = .ok a p := by
    simp only [deref, bind, EStateM.bind, get_run, ha]
    rfl
  unfold turn
  rw [run_lift_bind hargAt, run_bind hlookup]
  dsimp only
  rw [run_bind hderef]
  by_cases hbool : a.type = .bool
  · rw [if_pos hbool, store_eq _ _ ha, BaseArg.accept, BaseArg.read, if_pos hbool]
    rfl
  · rw [if_neg hbool, if_pos (hself.resolve_left hbool), BaseArg.accept, BaseArg.read, if_neg hbool]
    cases hconvert : convert c a.type name name with
    | error e => rfl
    | ok v =>
      rw [run_lift_bind rfl, store_eq _ _ ha]
      rfl

/-- A name with the value behind it. -/
theorem turn_next (hname : argv[i]? = some name) (hval : argv[i + 1]? = some val)
    (hlookup : lookup name k p = .ok (m, k') p) (ha : p.options[m]? = some a)
    (hbool : a.type ≠ .bool) (hself : (a.position.isSome || a.collecting) = false) :
    turn c argv i k p = settle p m (i + 1, k') (a.accept c name val) := by
  have hargAt : argAt argv i = .ok name := by rw [argAt, hname]
  have hnext : argAt argv (i + 1) = .ok val := by rw [argAt, hval]
  have hlt := (List.getElem?_eq_some_iff.1 hval).1
  have hderef : (deref m : ParseM F (BaseArg F)) p = .ok a p := by
    simp only [deref, bind, EStateM.bind, get_run, ha]
    rfl
  unfold turn
  rw [run_lift_bind hargAt, run_bind hlookup]
  dsimp only
  rw [run_bind hderef, if_neg hbool, if_neg (by simp [hself]), if_neg (by omega), run_lift_bind hnext,
    BaseArg.accept, BaseArg.read, if_neg hbool]
  cases hconvert : convert c a.type name val with
  | error e => rfl
  | ok v =>
    rw [run_lift_bind rfl, store_eq _ _ ha]
    rfl

/-! ## Tables -/

/-- At most one element has the property. -/
def OneOnly {α : Type} (q : α → Prop) (xs : List α) : Prop := xs.Pairwise fun x y => q x → ¬q y

theorem OneOnly.index {α : Type} {q : α → Prop} {xs : List α} (h : OneOnly q xs) {i j : Nat}
    {x y : α} (hx : xs[i]? = some x) (hy : xs[j]? = some y) (hqx : q x) (hqy : q y) : i = j := by
  obtain ⟨hi, rfl⟩ := List.getElem?_eq_some_iff.1 hx
  obtain ⟨hj, rfl⟩ := List.getElem?_eq_some_iff.1 hy
  rcases Nat.lt_trichotomy i j with hlt | heq | hlt
  · exact absurd hqy (List.pairwise_iff_getElem.1 h i j hi hj hlt hqx)
  · exact heq
  · exact absurd hqx (List.pairwise_iff_getElem.1 h j i hj hi hlt hqy)

/-- The one element that has the property is found. -/
theorem OneOnly.findIdx? {α : Type} {q : α → Bool} {xs : List α} (h : OneOnly (q · = true) xs)
    {i : Nat} {x : α} (hx : xs[i]? = some x) (hq : q x = true) : xs.findIdx? q = some i := by
  cases hfind : xs.findIdx? q with
  | none =>
    have := List.findIdx?_eq_none_iff.1 hfind x (List.mem_of_getElem? hx)
    rw [hq] at this
    cases this
  | some j =>
    obtain ⟨hj, hqj, -⟩ := List.findIdx?_eq_some_iff_getElem.1 hfind
    rw [h.index (List.getElem?_eq_getElem hj) hx hqj hq]

/-- What the positions are when no one is used twice. -/
theorem verifyNoDuplicatePositionals_ok (h : p.verifyNoDuplicatePositionals = .ok ()) (k : UInt32) :
    OneOnly (fun a => a.position = some k) p.options := by
  obtain ⟨positions, hfold, -⟩ := bind_eq_ok.1 h
  clear h
  generalize ([] : List UInt32) = seen at hfold
  generalize p.options = options at hfold
  have hboth : OneOnly (fun a => a.position = some k) options ∧
      (k ∈ seen → ∀ a ∈ options, a.position ≠ some k) := by
    induction options generalizing seen with
    | nil => exact ⟨.nil, fun _ _ h => absurd h List.not_mem_nil⟩
    | cons a options ih =>
      rw [List.foldlM_cons] at hfold
      obtain ⟨seen', hstep, hrest⟩ := bind_eq_ok.1 hfold
      obtain ⟨hone, hseen⟩ := ih seen' hrest
      cases hpos : a.position with
      | none =>
        simp only [hpos, Except.ok.injEq] at hstep
        subst hstep
        exact ⟨List.pairwise_cons.2 ⟨fun b _ ha => by simp [hpos] at ha, hone⟩,
          fun hk => List.forall_mem_cons.2 ⟨by simp [hpos], hseen hk⟩⟩
      | some pos =>
        simp only [hpos] at hstep
        split at hstep
        · cases hstep
        · rename_i hnew
          cases hstep
          refine ⟨List.pairwise_cons.2 ⟨fun b hb ha => ?_, hone⟩, fun hk =>
            List.forall_mem_cons.2 ⟨?_, hseen (List.mem_cons_of_mem _ hk)⟩⟩
          · obtain rfl : pos = k := by simpa [hpos] using ha
            exact hseen List.mem_cons_self b hb
          · rw [hpos]
            intro hin
            obtain ⟨⟩ := hin
            exact hnew hk
  exact hboth.1

theorem verifyNoDuplicateCollecting_ok (h : p.verifyNoDuplicateCollecting = .ok ()) :
    OneOnly (fun a => a.collecting = true) p.options := by
  obtain ⟨count, hfold, -⟩ := bind_eq_ok.1 h
  clear h
  generalize 0 = seen at hfold
  generalize p.options = options at hfold
  have hboth : OneOnly (fun a => a.collecting = true) options ∧
      (1 ≤ seen → ∀ a ∈ options, a.collecting ≠ true) := by
    induction options generalizing seen with
    | nil => exact ⟨.nil, fun _ _ h => absurd h List.not_mem_nil⟩
    | cons a options ih =>
      rw [List.foldlM_cons] at hfold
      obtain ⟨seen', hstep, hrest⟩ := bind_eq_ok.1 hfold
      obtain ⟨hone, hseen⟩ := ih seen' hrest
      by_cases hcol : a.collecting = true
      · by_cases htwo : 2 ≤ seen + 1
        · simp [hcol, htwo] at hstep
        · obtain rfl : seen + 1 = seen' := by simpa [hcol, htwo] using hstep
          exact ⟨List.pairwise_cons.2 ⟨fun b hb _ => hseen (by omega) b hb, hone⟩,
            fun hk => absurd hk (by omega)⟩
      · by_cases htwo : 2 ≤ seen
        · simp [hcol, htwo] at hstep
        · obtain rfl : seen = seen' := by simpa [hcol, htwo] using hstep
          exact ⟨List.pairwise_cons.2 ⟨fun b _ ha => absurd ha hcol, hone⟩,
            fun hk => List.forall_mem_cons.2 ⟨hcol, hseen hk⟩⟩
  exact hboth.1

/-! ## Arguments and what they give -/

/-- The name of a `bool` option, another name with its value, or a free argument. -/
inductive Item
  | flag (name : Bytes)
  | named (name value : Bytes)
  | free (token : Bytes)
  deriving DecidableEq, Repr

def Item.texts : Item → List Bytes
  | flag name => [name]
  | named name value => [name, value]
  | free token => [token]

def texts (items : List Item) : List Bytes := items.flatMap Item.texts

/-- Neither positional nor collecting. -/
def BaseArg.ByName (a : BaseArg F) : Prop := (a.position.isSome || a.collecting) = false

instance (a : BaseArg F) : Decidable a.ByName := inferInstanceAs (Decidable (_ = _))

/-- Options that are given by name are not positional and not collecting, and a free argument is no
name. -/
def Item.Fits (os : List (BaseArg F)) : Item → Prop
  | flag name => ∃ a ∈ os, a.Named name ∧ a.ByName ∧ a.type = .bool
  | named name _ => ∃ a ∈ os, a.Named name ∧ a.ByName ∧ a.type ≠ .bool
  | free token => ∀ a ∈ os, ¬a.Named token

/-- The values behind the names of an option; that of a flag is empty. -/
def named (a : BaseArg F) (items : List Item) : List Bytes :=
  items.filterMap fun
    | .flag name => if a.Named name then some [] else none
    | .named name value => if a.Named name then some value else none
    | .free _ => none

def tokens (items : List Item) : List Bytes :=
  items.filterMap fun
    | .free token => some token
    | _ => none

/-- The free argument number `k` is for the option with this position, else for the collecting
one. -/
def Takes (os : List (BaseArg F)) (a : BaseArg F) (k : Nat) : Prop :=
  a.position = some (UInt32.ofNat k) ∨
    a.collecting = true ∧ ∀ b ∈ os, b.position ≠ some (UInt32.ofNat k)

instance (os : List (BaseArg F)) (a : BaseArg F) (k : Nat) : Decidable (Takes os a k) :=
  inferInstanceAs (Decidable (_ ∨ _))

/-- The free arguments for an option when the first one has number `k`. -/
def free (os : List (BaseArg F)) (a : BaseArg F) (k : Nat) (ts : List Bytes) : List Bytes :=
  (ts.zipIdx k).filterMap fun t => if Takes os a t.2 then some t.1 else none

/-- All texts for an option. -/
def given (os : List (BaseArg F)) (k : Nat) (items : List Item) (a : BaseArg F) : List Bytes :=
  if a.ByName then named a items else free os a k (tokens items)

/-! ## The table does not change -/

/-- What `parse` never writes. -/
def BaseArg.key (a : BaseArg F) : BaseArg F := { a with dst := [], provided := false }

def Same (os : List (BaseArg F)) (p : ArgParser F) : Prop :=
  p.options.map BaseArg.key = os.map BaseArg.key

variable {os : List (BaseArg F)} {items : List Item} {n : Nat}

theorem key_named (h : a.key = b.key) (name : Bytes) : a.Named name ↔ b.Named name := by
  have hoption : a.option = b.option := congrArg (·.option) h
  have haliases : a.aliases = b.aliases := congrArg (·.aliases) h
  rw [BaseArg.Named, BaseArg.Named, hoption, haliases]

theorem key_byName (h : a.key = b.key) : a.ByName ↔ b.ByName := by
  have hposition : a.position = b.position := congrArg (·.position) h
  have hcollecting : a.collecting = b.collecting := congrArg (·.collecting) h
  rw [BaseArg.ByName, BaseArg.ByName, hposition, hcollecting]

theorem key_takes (h : a.key = b.key) (k : Nat) : Takes os a k ↔ Takes os b k := by
  have hposition : a.position = b.position := congrArg (·.position) h
  have hcollecting : a.collecting = b.collecting := congrArg (·.collecting) h
  rw [Takes, Takes, hposition, hcollecting]

theorem key_given (h : a.key = b.key) : given os n items a = given os n items b := by
  refine if_congr (key_byName h) (List.filterMap_congr fun item _ => ?_)
    (List.filterMap_congr fun t _ => if_congr (key_takes h _) rfl rfl)
  cases item with
  | flag name => exact if_congr (key_named h name) rfl rfl
  | named name value => exact if_congr (key_named h name) rfl rfl
  | free token => rfl

theorem accept_key (h : a.accept c name val = .ok b) : b.key = a.key := by
  obtain ⟨v, -, h⟩ := bind_eq_ok.1 h
  split at h
  · cases h
  · cases h
    rfl

theorem Same.get (h : Same os p) (hm : p.options[m]? = some a) :
    ∃ b, os[m]? = some b ∧ b.key = a.key := by
  have hkey : (os.map BaseArg.key)[m]? = some a.key := by
    rw [← h, List.getElem?_map, hm]
    rfl
  rw [List.getElem?_map, Option.map_eq_some_iff] at hkey
  exact hkey

theorem Same.get' (h : Same os p) (hm : os[m]? = some a) :
    ∃ b, p.options[m]? = some b ∧ b.key = a.key := by
  have hkey : (p.options.map BaseArg.key)[m]? = some a.key := by
    rw [h, List.getElem?_map, hm]
    rfl
  rw [List.getElem?_map, Option.map_eq_some_iff] at hkey
  exact hkey

theorem Same.put (h : Same os p) (hm : p.options[m]? = some a) (hkey : b.key = a.key) :
    Same os (p.put m b) := by
  rw [Same, ← h, ArgParser.put, List.map_set]
  refine List.ext_getElem? fun j => ?_
  rw [List.getElem?_set]
  by_cases hj : m = j
  · subst hj
    have hlt := (List.getElem?_eq_some_iff.1 hm).1
    rw [if_pos rfl, List.length_map, if_pos hlt, List.getElem?_map, hm, hkey]
    rfl
  · rw [if_neg hj]

theorem Same.findIdx? (h : Same os p) {q : BaseArg F → Bool} (hq : ∀ a, q a.key = q a) :
    p.options.findIdx? q = os.findIdx? q := by
  have hkey : q ∘ BaseArg.key = q := funext hq
  have hmap := congrArg (List.findIdx? q) h
  rwa [List.findIdx?_map, List.findIdx?_map, hkey] at hmap

/-! ## One turn of the loop -/

/-- A table in which nothing is ambiguous. -/
structure Table (os : List (BaseArg F)) : Prop where
  names : ∀ name, OneOnly (fun a => a.Named name) os
  positions : ∀ k, OneOnly (fun a => a.position = some k) os
  collecting : OneOnly (fun a => a.collecting = true) os

theorem Table.takes (h : Table os) {j k : Nat} (hm : os[m]? = some a) (hj : os[j]? = some b)
    (ha : Takes os a k) (hb : Takes os b k) : m = j := by
  rcases ha with ha | ⟨ha, hnone⟩
  · rcases hb with hb | ⟨-, hnone⟩
    · exact (h.positions _).index hm hj ha hb
    · exact absurd ha (hnone a (List.mem_of_getElem? hm))
  · rcases hb with hb | ⟨hb, -⟩
    · exact absurd hb (hnone b (List.mem_of_getElem? hj))
    · exact h.collecting.index hm hj ha hb

section
variable {k : UInt32}

theorem find_of_named (hs : Same os p) (h : Table os) (hm : os[m]? = some a) (ha : a.Named name) :
    p.find name = some m := by
  rw [ArgParser.find, hs.findIdx? fun a => decide_eq_decide.2 (key_named rfl name)]
  refine OneOnly.findIdx? ?_ hm (decide_eq_true ha)
  simpa only [decide_eq_true_eq] using h.names name

theorem find_of_free (hs : Same os p) (h : ∀ a ∈ os, ¬a.Named name) : p.find name = none := by
  rw [ArgParser.find, hs.findIdx? fun a => decide_eq_decide.2 (key_named rfl name),
    List.findIdx?_eq_none_iff]
  exact fun a ha => decide_eq_false (h a ha)

theorem lookup_named (h : p.find name = some m) : lookup name k p = .ok (m, k) p := by
  simp only [lookup, bind, EStateM.bind, get_run, h]
  rfl

/-- The option for a free argument is found by its position or as the collecting one. -/
theorem lookup_free (hs : Same os p) (h : Table os) (hname : p.find name = none) {n : Nat}
    (hm : os[m]? = some a) (ha : Takes os a n) :
    lookup name (UInt32.ofNat n) p = .ok (m, UInt32.ofNat (n + 1)) p := by
  have hnext : UInt32.ofNat n + 1 = UInt32.ofNat (n + 1) := (UInt32.ofNat_add n 1).symm
  have hposition := hs.findIdx? (q := fun a => a.position = some (UInt32.ofNat n)) fun _ => rfl
  have hcollecting := hs.findIdx? (q := fun a => a.collecting) fun _ => rfl
  simp only [lookup, bind, EStateM.bind, get_run, hname, findPosition, findCollecting, hposition,
    hcollecting]
  rcases ha with ha | ⟨ha, hnone⟩
  · have hfind := OneOnly.findIdx? (q := fun a : BaseArg F => a.position = some (UInt32.ofNat n))
      (by simpa only [decide_eq_true_eq] using h.positions _) hm (decide_eq_true ha)
    simp only [hfind, hnext]
    rfl
  · have hfind : os.findIdx? (fun a => decide (a.position = some (UInt32.ofNat n))) = none :=
      List.findIdx?_eq_none_iff.2 fun b hb => decide_eq_false (hnone b hb)
    simp only [hfind, h.collecting.findIdx? hm ha, hnext]
    rfl

/-- Without an option for it a free argument is an error. -/
theorem lookup_none (hs : Same os p) (hname : p.find name = none) {n : Nat}
    (h : ∀ a ∈ os, ¬Takes os a n) : ∃ e, lookup name (UInt32.ofNat n) p = .error e p := by
  have hposition := hs.findIdx? (q := fun a => a.position = some (UInt32.ofNat n)) fun _ => rfl
  have hcollecting := hs.findIdx? (q := fun a => a.collecting) fun _ => rfl
  have hnone : ∀ a ∈ os, a.position ≠ some (UInt32.ofNat n) := fun a ha he => h a ha (.inl he)
  have hfind : os.findIdx? (fun a => decide (a.position = some (UInt32.ofNat n))) = none :=
    List.findIdx?_eq_none_iff.2 fun b hb => decide_eq_false (hnone b hb)
  have hfind' : os.findIdx? (·.collecting) = none :=
    List.findIdx?_eq_none_iff.2 fun b hb => by simpa using fun hc => h b hb (.inr ⟨hc, hnone⟩)
  simp only [lookup, bind, EStateM.bind, get_run, hname, findPosition, findCollecting, hposition,
    hcollecting, hfind, hfind']
  exact ⟨_, rfl⟩

end

/-! ## The whole loop -/

/-- The option after all texts for it. -/
def AcceptsAll (c : Floats F) : BaseArg F → List Bytes → BaseArg F → Prop
  | a, [], a' => a' = a
  | a, t :: ts, a' => ∃ b, a.accept c a.option t = .ok b ∧ AcceptsAll c b ts a'

/-- Each option of `p'` is that of `p` after its texts. -/
def Given (c : Floats F) (ts : BaseArg F → List Bytes) (p p' : ArgParser F) : Prop :=
  p'.parsed = p.parsed ∧ p'.options.length = p.options.length ∧
    ∀ (j : Nat) a, p.options[j]? = some a → ∃ a', p'.options[j]? = some a' ∧ AcceptsAll c a (ts a) a'

theorem given_refl {ts : BaseArg F → List Bytes} (h : ∀ a, ts a = []) : Given c ts p p' ↔ p' = p := by
  constructor
  · intro hin
    obtain ⟨hparsed, hlen, hall⟩ := hin
    obtain ⟨options, parsed⟩ := p
    obtain ⟨options', parsed'⟩ := p'
    obtain rfl : parsed' = parsed := hparsed
    congr 1
    refine List.ext_getElem? fun j => ?_
    cases hj : options[j]? with
    | none => exact List.getElem?_eq_none (hlen ▸ List.getElem?_eq_none_iff.1 hj)
    | some a =>
      obtain ⟨a', ha', hacc⟩ := hall j a hj
      rw [h a] at hacc
      obtain rfl : a' = a := hacc
      exact ha'
  · rintro rfl
    exact ⟨rfl, rfl, fun j a ha => ⟨a, ha, by rw [h a]; rfl⟩⟩

/-- One text more for one option. -/
theorem given_cons {ts ts' : BaseArg F → List Bytes} {t : Bytes} (hm : p.options[m]? = some a)
    (hkey : ∀ a b : BaseArg F, a.key = b.key → ts a = ts b) (ht : ts' a = t :: ts a)
    (hother : ∀ (j : Nat) b, j ≠ m → p.options[j]? = some b → ts' b = ts b) :
    Given c ts' p p' ↔ ∃ b, a.accept c a.option t = .ok b ∧ Given c ts (p.put m b) p' := by
  have hput : ∀ (b : BaseArg F) j, (p.put m b).options[j]? =
      if j = m then some b else p.options[j]? := by
    intro b j
    have hlt := (List.getElem?_eq_some_iff.1 hm).1
    rw [put, List.getElem?_set]
    by_cases hj : m = j
    · rw [if_pos hj, if_pos hlt, if_pos hj.symm]
    · rw [if_neg hj, if_neg fun he => hj he.symm]
  constructor
  · intro h
    obtain ⟨hparsed, hlen, hall⟩ := h
    obtain ⟨a', ha', hacc⟩ := hall m a hm
    rw [ht] at hacc
    obtain ⟨b, hb, hacc⟩ := hacc
    refine ⟨b, hb, hparsed, by rw [hlen, put, List.length_set], fun j d hd => ?_⟩
    rw [hput] at hd
    by_cases hj : j = m
    · subst hj
      rw [if_pos rfl, Option.some.injEq] at hd
      subst hd
      exact ⟨a', ha', hkey _ _ (accept_key hb) ▸ hacc⟩
    · rw [if_neg hj] at hd
      obtain ⟨d', hd', hacc⟩ := hall j d hd
      exact ⟨d', hd', hother j d hj hd ▸ hacc⟩
  · intro h
    obtain ⟨b, hb, hparsed, hlen, hall⟩ := h
    rw [put, List.length_set] at hlen
    refine ⟨hparsed, hlen, fun j d hd => ?_⟩
    by_cases hj : j = m
    · subst hj
      obtain rfl : a = d := by
        rw [hm] at hd
        exact Option.some.inj hd
      obtain ⟨a', ha', hacc⟩ := hall j b (by rw [hput, if_pos rfl])
      exact ⟨a', ha', by rw [ht]; exact ⟨b, hb, hkey _ _ (accept_key hb) ▸ hacc⟩⟩
    · obtain ⟨d', hd', hacc⟩ := hall j d (by rw [hput, if_neg hj, hd])
      exact ⟨d', hd', (hother j d hj hd).symm ▸ hacc⟩

theorem convert_name {type : Ty} {v : Value F} (h : convert c type name val = .ok v)
    (name' : Bytes) : convert c type name' val = .ok v := by
  have hcatch : ∀ {α : Type} {x : Except Exn α} {r : α}, catchRange name x = .ok r →
      catchRange name' x = .ok r := by
    intro α x r hx
    unfold catchRange at hx ⊢
    split at hx
    · cases hx
    · rename_i hne
      subst hx
      rfl
  cases type with
  | float =>
    obtain ⟨f, hf, h⟩ := bind_eq_ok.1 h
    refine bind_eq_ok.2 ⟨f, hf, ?_⟩
    split at h
    · cases h
    · rename_i herange
      rw [if_neg herange]
      exact h
  | int => exact hcatch h
  | uint => exact hcatch h
  | string => exact h
  | bool => cases h

/-- The name is part of the messages only. -/
theorem accept_name (h : a.accept c name val = .ok b) (name' : Bytes) :
    a.accept c name' val = .ok b := by
  obtain ⟨v, hv, h⟩ := bind_eq_ok.1 h
  refine bind_eq_ok.2 ⟨v, ?_, h⟩
  unfold BaseArg.read at hv ⊢
  split at hv
  · rename_i hbool
    rw [if_pos hbool, hv]
  · rename_i hbool
    rw [if_neg hbool, convert_name hv]

/-- A flag has no use for a text. -/
theorem accept_flag (hbool : a.type = .bool) (name val name' val' : Bytes) :
    a.accept c name val = a.accept c name' val' := by
  simp only [BaseArg.accept, BaseArg.read, if_pos hbool]

theorem parseFrom_turn {fuel j : Nat} {k k' : UInt32} (hi : i < argv.length)
    (hturn : turn c argv i k p = settle p m (j, k') (a.accept c name val)) :
    parseFrom c argv (fuel + 1) i k p = .ok () p' ↔ ∃ b, a.accept c a.option val = .ok b ∧
      parseFrom c argv fuel (j + 1) k' (p.put m b) = .ok () p' := by
  rw [parseFrom, if_pos hi]
  simp only [bind, EStateM.bind, hturn]
  cases haccept : a.accept c name val with
  | error e =>
    simp only [settle]
    constructor
    · intro h
      cases h
    · intro hin
      obtain ⟨b, hb, -⟩ := hin
      rw [accept_name hb name] at haccept
      cases haccept
  | ok b =>
    simp only [settle, accept_name haccept a.option, Except.ok.injEq, exists_eq_left']

theorem drop_cons {x : Bytes} {xs : List Bytes} (h : argv.drop i = x :: xs) :
    argv[i]? = some x ∧ argv.drop (i + 1) = xs ∧ i < argv.length := by
  have hi : i < argv.length := by
    by_contra hge
    rw [List.drop_eq_nil_of_le (by omega)] at h
    cases h
  rw [List.drop_eq_getElem_cons hi] at h
  obtain ⟨hx, hxs⟩ := List.cons.inj h
  exact ⟨by rw [List.getElem?_eq_getElem hi, hx], hxs, hi⟩

section
variable {item : Item} {n : Nat}

/-- A value behind a name is for that option only. -/
theorem given_other (h : Table os) (hs : Same os p) (val : Bytes) {j : Nat} (hm : os[m]? = some a)
    (hname : a.Named name) (hj : j ≠ m) (hb : p.options[j]? = some b)
    (hitem : item = .flag name ∨ item = .named name val) :
    given os n (item :: items) b = given os n items b := by
  obtain ⟨b₀, hb₀, hkey⟩ := hs.get hb
  have hnot : ¬b.Named name := fun hn =>
    hj ((h.names name).index hb₀ hm ((key_named hkey name).2 hn) hname)
  rcases hitem with rfl | rfl <;> simp [given, named, tokens, hnot]

/-- A free argument is for the option that takes it only. -/
theorem given_free (h : Table os) (hs : Same os p) {j : Nat} {t : Bytes} (hm : os[m]? = some a)
    (htakes : Takes os a n) (hj : j ≠ m) (hb : p.options[j]? = some b) :
    given os n (.free t :: items) b = given os (n + 1) items b := by
  obtain ⟨b₀, hb₀, hkey⟩ := hs.get hb
  have hnot : ¬Takes os b n := fun hn => hj (h.takes hb₀ hm ((key_takes hkey n).2 hn) htakes)
  simp [given, named, tokens, free, hnot]

theorem not_byName {k : Nat} (h : Takes os a k) : ¬a.ByName := by
  rcases h with h | ⟨h, -⟩ <;> simp [BaseArg.ByName, h]

end

theorem exists_and_iff {α : Type} {A R G : α → Prop} {T : Prop} (h : ∀ x, A x → (R x ↔ T ∧ G x)) :
    (∃ x, A x ∧ R x) ↔ T ∧ ∃ x, A x ∧ G x := by
  constructor
  · intro hin
    obtain ⟨x, hx, hr⟩ := hin
    exact ⟨((h x hx).1 hr).1, x, hx, ((h x hx).1 hr).2⟩
  · intro hin
    obtain ⟨ht, x, hx, hg⟩ := hin
    exact ⟨x, hx, (h x hx).2 ⟨ht, hg⟩⟩

/-- A turn takes the item as a text of one option, and the next one begins behind it. -/
structure Serves (c : Floats F) (os : List (BaseArg F)) (argv : List Bytes) (i n : Nat)
    (p : ArgParser F) (item : Item) (items : List Item) (m : Nat) (a : BaseArg F) (val : Bytes)
    (i' n' : Nat) : Prop where
  option : p.options[m]? = some a
  lt : i < i'
  le : i' ≤ argv.length
  rest : argv.drop i' = texts items
  turn : ∀ fuel p', parseFrom c argv (fuel + 1) i (UInt32.ofNat n) p = .ok () p' ↔
    ∃ b, a.accept c a.option val = .ok b ∧
      parseFrom c argv fuel i' (UInt32.ofNat n') (p.put m b) = .ok () p'
  given : ∀ p', Given c (given os n (item :: items)) p p' ↔
    ∃ b, a.accept c a.option val = .ok b ∧ Given c (given os n' items) (p.put m b) p'
  takes : (∀ j < (tokens (item :: items)).length, ∃ a ∈ os, Takes os a (n + j)) ↔
    ∀ j < (tokens items).length, ∃ a ∈ os, Takes os a (n' + j)

theorem serves_flag (h : Table os) (hs : Same os p)
    (hargv : argv.drop i = texts (.flag name :: items)) (hfit : (Item.flag name).Fits os) :
    ∃ m a, Serves c os argv i n p (.flag name) items m a [] (i + 1) n := by
  obtain ⟨a₀, hmem, hname, hby, hbool⟩ := hfit
  obtain ⟨m, hm⟩ := List.mem_iff_getElem?.1 hmem
  obtain ⟨a, ha, hkey⟩ := hs.get' hm
  obtain ⟨hat, hdrop, hlt⟩ := drop_cons hargv
  have hbool' : a.type = .bool := (congrArg (·.type) hkey).trans hbool
  have hgiven : given os n (.flag name :: items) a = [] :: given os n items a := by
    have hname' := (key_named hkey name).2 hname
    have hby' := (key_byName hkey).2 hby
    simp [given, named, hname', hby']
  refine ⟨m, a, ha, Nat.lt_succ_self i, hlt, hdrop, fun fuel p' => ?_, fun p' => ?_, Iff.rfl⟩
  · rw [parseFrom_turn hlt (turn_self hat (lookup_named (find_of_named hs h hm hname)) ha
      (.inl hbool')), accept_flag hbool' a.option name a.option []]
  · exact given_cons ha (fun _ _ => key_given) hgiven
      fun j b hj hb => given_other h hs [] hm hname hj hb (.inl rfl)

theorem serves_named (h : Table os) (hs : Same os p)
    (hargv : argv.drop i = texts (.named name val :: items)) (hfit : (Item.named name val).Fits os) :
    ∃ m a, Serves c os argv i n p (.named name val) items m a val (i + 2) n := by
  obtain ⟨a₀, hmem, hname, hby, hbool⟩ := hfit
  obtain ⟨m, hm⟩ := List.mem_iff_getElem?.1 hmem
  obtain ⟨a, ha, hkey⟩ := hs.get' hm
  obtain ⟨hat, hdrop, hlt⟩ := drop_cons hargv
  obtain ⟨hat', hdrop', hlt'⟩ := drop_cons hdrop
  have hbool' : a.type ≠ .bool := (congrArg (·.type) hkey).trans_ne hbool
  have hby' := (key_byName hkey).2 hby
  have hgiven : given os n (.named name val :: items) a = val :: given os n items a := by
    have hname' := (key_named hkey name).2 hname
    simp [given, named, hname', hby']
  refine ⟨m, a, ha, by omega, hlt', hdrop', fun fuel p' => ?_, fun p' => ?_, Iff.rfl⟩
  · exact parseFrom_turn hlt (turn_next hat hat' (lookup_named (find_of_named hs h hm hname)) ha
      hbool' hby')
  · exact given_cons ha (fun _ _ => key_given) hgiven
      fun j b hj hb => given_other h hs val hm hname hj hb (.inr rfl)

theorem takes_free (t : Bytes) :
    (∀ j < (tokens (.free t :: items)).length, ∃ a ∈ os, Takes os a (n + j)) ↔
      (∃ a ∈ os, Takes os a n) ∧
        ∀ j < (tokens items).length, ∃ a ∈ os, Takes os a (n + 1 + j) := by
  rw [show tokens (.free t :: items) = t :: tokens items from rfl, List.length_cons,
    Nat.forall_lt_succ_left]
  simp only [Nat.add_zero, Nat.add_assoc, Nat.add_comm 1]

theorem serves_free (h : Table os) (hs : Same os p)
    (hargv : argv.drop i = texts (.free val :: items)) (hfit : (Item.free val).Fits os)
    (htakes : ∃ a ∈ os, Takes os a n) :
    ∃ m a, Serves c os argv i n p (.free val) items m a val (i + 1) (n + 1) := by
  have htokens : (∀ j < (tokens (.free val :: items)).length, ∃ a ∈ os, Takes os a (n + j)) ↔
      ∀ j < (tokens items).length, ∃ a ∈ os, Takes os a (n + 1 + j) :=
    (takes_free val).trans (and_iff_right htakes)
  obtain ⟨a₀, hmem, htakes⟩ := htakes
  obtain ⟨m, hm⟩ := List.mem_iff_getElem?.1 hmem
  obtain ⟨a, ha, hkey⟩ := hs.get' hm
  obtain ⟨hat, hdrop, hlt⟩ := drop_cons hargv
  have htakes' := (key_takes hkey n).2 htakes
  have hby := not_byName htakes'
  have hgiven : given os n (.free val :: items) a = val :: given os (n + 1) items a := by
    simp [given, tokens, free, hby, htakes']
  refine ⟨m, a, ha, Nat.lt_succ_self i, hlt, hdrop, fun fuel p' => ?_, fun p' => ?_, htokens⟩
  · exact parseFrom_turn hlt (turn_self hat (lookup_free hs h (find_of_free hs hfit) hm htakes) ha
      (.inr (Bool.not_eq_false _ ▸ hby)))
  · exact given_cons ha (fun _ _ => key_given) hgiven
      fun j b hj hb => given_free h hs hm htakes hj hb

/-- A free argument that no option takes ends the loop. -/
theorem parseFrom_none {fuel : Nat} (hs : Same os p)
    (hargv : argv.drop i = texts (.free val :: items)) (hfit : (Item.free val).Fits os)
    (htakes : ¬∃ a ∈ os, Takes os a n) :
    parseFrom c argv (fuel + 1) i (UInt32.ofNat n) p ≠ .ok () p' := by
  obtain ⟨hat, -, hlt⟩ := drop_cons hargv
  obtain ⟨e, he⟩ := lookup_none hs (find_of_free hs hfit) (n := n)
    fun a ha hn => htakes ⟨a, ha, hn⟩
  have hargAt : argAt argv i = .ok val := by rw [argAt, hat]
  intro hok
  rw [parseFrom, if_pos hlt] at hok
  unfold turn at hok
  simp only [bind, EStateM.bind, lift, hargAt, he] at hok
  cases hok

/-- The loop over the arguments from the index `i` on, with `n` free ones before it. -/
theorem parseFrom_iff (h : Table os) {items : List Item} {fuel n : Nat} (hs : Same os p)
    (hi : i ≤ argv.length) (hargv : argv.drop i = texts items) (hfuel : argv.length < i + fuel)
    (hfits : ∀ item ∈ items, item.Fits os) :
    parseFrom c argv fuel i (UInt32.ofNat n) p = .ok () p' ↔
      (∀ j < (tokens items).length, ∃ a ∈ os, Takes os a (n + j)) ∧
        Given c (given os n items) p p' := by
  induction items generalizing p i n fuel with
  | nil =>
    obtain ⟨fuel, rfl⟩ : ∃ f, fuel = f + 1 := ⟨fuel - 1, by omega⟩
    have hlen : argv.length ≤ i := List.drop_eq_nil_iff.1 hargv
    rw [parseFrom, if_neg (by omega), given_refl fun a => by simp [given, named, free, tokens]]
    simp only [tokens, List.filterMap_nil, List.length_nil, Nat.not_lt_zero, false_implies,
      implies_true, true_and]
    constructor
    · intro hin
      obtain ⟨⟩ := hin
      rfl
    · rintro rfl
      rfl
  | cons item items ih =>
    obtain ⟨hfit, hrest⟩ := List.forall_mem_cons.1 hfits
    obtain ⟨fuel, rfl⟩ : ∃ f, fuel = f + 1 := by
      refine ⟨fuel - 1, ?_⟩
      by_contra hzero
      have hnil : argv.drop i = [] := List.drop_eq_nil_of_le (by omega)
      rw [hargv] at hnil
      cases item <;> simp [texts, Item.texts] at hnil
    -- a turn for an option, and the turns behind it
    have hrun : ∀ {m a val i' n'}, Serves c os argv i n p item items m a val i' n' →
        (parseFrom c argv (fuel + 1) i (UInt32.ofNat n) p = .ok () p' ↔
          (∀ j < (tokens (item :: items)).length, ∃ a ∈ os, Takes os a (n + j)) ∧
            Given c (given os n (item :: items)) p p') := by
      intro m a val i' n' hturn
      have hlt := hturn.lt
      rw [hturn.turn, hturn.given, hturn.takes]
      exact exists_and_iff fun b hb =>
        ih (hs.put hturn.option (accept_key hb)) hturn.le hturn.rest (by omega) hrest
    cases item with
    | flag name =>
      obtain ⟨m, a, hturn⟩ := serves_flag h hs hargv hfit
      exact hrun hturn
    | named name val =>
      obtain ⟨m, a, hturn⟩ := serves_named h hs hargv hfit
      exact hrun hturn
    | free t =>
      by_cases htakes : ∃ a ∈ os, Takes os a n
      · obtain ⟨m, a, hturn⟩ := serves_free h hs hargv hfit htakes
        exact hrun hturn
      · rw [takes_free]
        exact iff_of_false (parseFrom_none hs hargv hfit htakes) fun h => htakes h.1.1

/-! ## `parse` -/

theorem accept_iff : a.accept c name val = .ok b ↔ ∃ v, a.read c name val = .ok v ∧
    (a.multi = true ∨ a.dst = []) ∧ b = { a with dst := a.dst ++ [v], provided := true } := by
  rw [BaseArg.accept, bind_eq_ok]
  refine exists_congr fun v => and_congr_right fun _ => ?_
  by_cases h : (!a.multi && !a.dst.isEmpty) = true
  · rw [if_pos h]
    simp only [Bool.and_eq_true, Bool.not_eq_true', List.isEmpty_eq_false_iff] at h
    simp [h.1, h.2, throw, throwThe, MonadExceptOf.throw, bind, Except.bind]
  · rw [if_neg h]
    have hone : a.multi = true ∨ a.dst = [] := by
      cases hm : a.multi with
      | true => exact .inl rfl
      | false =>
        rw [hm] at h
        exact .inr (by simpa using h)
    rw [and_iff_right hone]
    exact pure_eq_ok.trans eq_comm

/-- The option with a value for each text: one that is not multi has room for one. -/
def Receives (c : Floats F) (a : BaseArg F) (ts : List Bytes) (a' : BaseArg F) : Prop :=
  ∃ vs, List.Forall₂ (fun t v => a.read c a.option t = .ok v) ts vs ∧
    (a.multi = true ∨ vs.length ≤ 1) ∧ a' = { a with dst := vs, provided := !ts.isEmpty }

theorem acceptsAll_iff {ts : List Bytes} {a' : BaseArg F} : AcceptsAll c a ts a' ↔
    ∃ vs, List.Forall₂ (fun t v => a.read c a.option t = .ok v) ts vs ∧
      (a.multi = true ∨ vs = [] ∨ a.dst = [] ∧ vs.length ≤ 1) ∧
      a' = { a with dst := a.dst ++ vs, provided := a.provided || !ts.isEmpty } := by
  induction ts generalizing a with
  | nil =>
    simp [AcceptsAll]
  | cons t ts ih =>
    simp only [AcceptsAll, accept_iff]
    constructor
    · intro h
      obtain ⟨_, ⟨v, hv, hroom, rfl⟩, hrest⟩ := h
      obtain ⟨vs, hvs, hroom', rfl⟩ := ih.1 hrest
      refine ⟨v :: vs, .cons hv hvs, ?_, by simp⟩
      rcases hroom with hmulti | hmulti
      · exact .inl hmulti
      · rcases hroom' with hm | rfl | ⟨hnil, -⟩
        · exact .inl hm
        · exact .inr (.inr ⟨hmulti, by simp⟩)
        · simp at hnil
    · rintro ⟨_, _ | ⟨hv, hvs⟩, hroom, rfl⟩
      rename_i v vs
      refine ⟨_, ⟨v, hv, ?_, rfl⟩, ih.2 ⟨vs, hvs, ?_, by simp⟩⟩
      · rcases hroom with hm | hm | ⟨hm, -⟩
        · exact .inl hm
        · cases hm
        · exact .inr hm
      · rcases hroom with hm | hm | ⟨-, hm⟩
        · exact .inl hm
        · cases hm
        · exact .inr (.inl (by simpa using hm))

/-- As `add_option` leaves it. -/
def BaseArg.Fresh (a : BaseArg F) : Prop := a.dst = [] ∧ a.provided = false

theorem receives_iff {ts : List Bytes} {a' : BaseArg F} (h : a.Fresh) :
    AcceptsAll c a ts a' ↔ Receives c a ts a' := by
  rw [acceptsAll_iff, Receives, h.1, h.2]
  refine exists_congr fun vs => and_congr_right fun _ => and_congr (or_congr_right ?_) (by simp)
  constructor
  · intro h
    rcases h with rfl | ⟨-, h⟩
    · simp
    · exact h
  · exact fun h => .inr ⟨rfl, h⟩

/-- Each required option has a value, or help is asked for. -/
def Required (os : List (BaseArg F)) : Prop :=
  (∀ a ∈ os, a.required = true → a.provided = true) ∨ ∃ a ∈ os, a.helpArg = true ∧ a.provided = true

theorem checkRequired_iff : checkRequired p = .ok () p' ↔ p' = p ∧ Required p.options := by
  have hok : (EStateM.Result.ok () p : EStateM.Result Exn (ArgParser F) Unit) = .ok () p' ↔
      p' = p := by
    simp [eq_comm]
  simp only [checkRequired, bind, EStateM.bind, get_run]
  cases hfind : p.options.find? fun a => !a.provided && a.required with
  | none =>
    have hall : ∀ a ∈ p.options, a.required = true → a.provided = true := by
      intro a ha hreq
      have := List.find?_eq_none.1 hfind a ha
      simpa [hreq] using this
    exact hok.trans (and_iff_left (.inl hall)).symm
  | some missing =>
    have hmissing : ¬∀ a ∈ p.options, a.required = true → a.provided = true := by
      intro hall
      have hm := List.find?_some hfind
      simp only [Bool.and_eq_true, Bool.not_eq_true'] at hm
      rw [hall missing (List.mem_of_find?_eq_some hfind) hm.2] at hm
      cases hm.1
    have hiff : (p.options.all fun a => !(a.helpArg && a.provided)) = true ↔
        ¬∃ a ∈ p.options, a.helpArg = true ∧ a.provided = true := by
      simp only [List.all_eq_true, not_exists, not_and]
      exact forall₂_congr fun a _ => by cases a.helpArg <;> simp
    by_cases hhelp : ∃ a ∈ p.options, a.helpArg = true ∧ a.provided = true
    · dsimp only
      rw [if_neg fun h => hiff.1 h hhelp]
      exact hok.trans (and_iff_left (.inr hhelp)).symm
    · dsimp only
      rw [if_pos (hiff.2 hhelp)]
      constructor
      · intro h
        cases h
      · rintro ⟨-, h | h⟩
        · exact absurd h hmissing
        · exact absurd h hhelp

theorem given_forall₂ {ts : BaseArg F → List Bytes} : Given c ts p p' ↔ p'.parsed = p.parsed ∧
    List.Forall₂ (fun a a' => AcceptsAll c a (ts a) a') p.options p'.options := by
  refine and_congr_right fun _ => ?_
  rw [List.forall₂_iff_get]
  constructor
  · intro hin
    obtain ⟨hlen, hall⟩ := hin
    refine ⟨hlen.symm, fun j h h' => ?_⟩
    obtain ⟨a', ha', hacc⟩ := hall j _ (List.getElem?_eq_getElem h)
    rw [List.getElem?_eq_getElem h', Option.some.injEq] at ha'
    subst ha'
    exact hacc
  · intro hin
    obtain ⟨hlen, hall⟩ := hin
    refine ⟨hlen.symm, fun j a ha => ?_⟩
    obtain ⟨h, rfl⟩ := List.getElem?_eq_some_iff.1 ha
    exact ⟨_, List.getElem?_eq_getElem (hlen ▸ h), hall j h (hlen ▸ h)⟩

theorem forall₂_congr_mem {α β : Type} {R S : α → β → Prop} {xs : List α} {ys : List β}
    (h : ∀ x ∈ xs, ∀ y, R x y ↔ S x y) : List.Forall₂ R xs ys ↔ List.Forall₂ S xs ys := by
  induction xs generalizing ys with
  | nil => simp
  | cons x xs ih =>
    obtain ⟨hx, hxs⟩ := List.forall_mem_cons.1 h
    cases ys with
    | nil => simp
    | cons y ys => rw [List.forall₂_cons, List.forall₂_cons, hx, ih hxs]

/-- Exactly what a run that does not throw leaves. -/
theorem parse_iff (cmd : Bytes) (hparsed : p.parsed = false) (hfresh : ∀ a ∈ p.options, a.Fresh)
    (hnames : ∀ name, OneOnly (fun a => a.Named name) p.options)
    (hpositionals : p.verifyNoDuplicatePositionals = .ok ())
    (hcollecting : p.verifyNoDuplicateCollecting = .ok ())
    (hfits : ∀ item ∈ items, item.Fits p.options) :
    parse c (cmd :: texts items) p = .ok () p' ↔
      (∀ k < (tokens items).length, ∃ a ∈ p.options, Takes p.options a k) ∧ p'.parsed = true ∧
      List.Forall₂ (fun a a' => Receives c a (given p.options 0 items a) a') p.options p'.options ∧
      Required p'.options := by
  have htable : Table p.options := ⟨hnames, verifyNoDuplicatePositionals_ok hpositionals,
    verifyNoDuplicateCollecting_ok hcollecting⟩
  have hloop : ∀ p₂, parseFrom c (cmd :: texts items) ((cmd :: texts items).length + 1) 1 0
      { p with parsed := true } = .ok () p₂ ↔
      (∀ k < (tokens items).length, ∃ a ∈ p.options, Takes p.options a k) ∧ p₂.parsed = true ∧
      List.Forall₂ (fun a a' => Receives c a (given p.options 0 items a) a') p.options
        p₂.options := by
    intro p₂
    have hargv : (cmd :: texts items).drop 1 = texts items := rfl
    have hfuel : (cmd :: texts items).length < 1 + ((cmd :: texts items).length + 1) := by omega
    have hsame : Same p.options { p with parsed := true } := rfl
    refine (parseFrom_iff (n := 0) htable hsame (by simp) hargv hfuel hfits).trans ?_
    rw [given_forall₂]
    simp only [Nat.zero_add]
    exact and_congr_right fun _ => and_congr_right fun _ =>
      forall₂_congr_mem fun a ha a' => receives_iff (hfresh a ha)
  have hrun : parse c (cmd :: texts items) p = .ok () p' ↔
      ∃ p₂, parseFrom c (cmd :: texts items) ((cmd :: texts items).length + 1) 1 0
        { p with parsed := true } = .ok () p₂ ∧ checkRequired p₂ = .ok () p' := by
    unfold parse
    simp only [bind, EStateM.bind, get_run, hparsed, Bool.false_eq_true, if_false, lift,
      hpositionals, hcollecting, modify_run]
    cases parseFrom c (cmd :: texts items) ((cmd :: texts items).length + 1) 1 0
        { p with parsed := true } with
    | error e p₂ => simp
    | ok u p₂ => simp
  rw [hrun]
  constructor
  · intro h
    obtain ⟨p₂, hp₂, hcheck⟩ := h
    obtain ⟨rfl, hrequired⟩ := checkRequired_iff.1 hcheck
    obtain ⟨htokens, hparsed, hall⟩ := (hloop p').1 hp₂
    exact ⟨htokens, hparsed, hall, hrequired⟩
  · intro h
    obtain ⟨htokens, hparsed, hall, hrequired⟩ := h
    exact ⟨p', (hloop p').2 ⟨htokens, hparsed, hall⟩, checkRequired_iff.2 ⟨rfl, hrequired⟩⟩

/-! ## What leaves `parse` is an exception -/

theorem bind_isStd {α β : Type} {x : Except Exn α} {f : α → Except Exn β} {e : Exn}
    (h : (x >>= f) = .error e) (hx : ∀ e, x = .error e → e.isStd = true)
    (hf : ∀ a e, f a = .error e → e.isStd = true) : e.isStd = true := by
  cases x with
  | error e' =>
    cases h
    exact hx e rfl
  | ok a => exact hf a e h

theorem stol_isStd {base : Nat} {s : Bytes} {e : Exn} (h : stol base s = .error e) :
    e.isStd = true := by
  unfold stol at h
  split at h
  · cases h
    rfl
  · split at h
    · cases h
    · cases h
      rfl

theorem numericCast_isStd {I J : IntTy} {v : Int} {e : Exn} (h : numericCast I J v = .error e) :
    e.isStd = true := by
  unfold numericCast at h
  split at h <;> split at h <;> cases h <;> rfl

theorem catchRange_isStd {α : Type} {x : Except Exn α} {e : Exn}
    (h : catchRange name x = .error e) (hx : ∀ e, x = .error e → e.isStd = true) :
    e.isStd = true := by
  unfold catchRange at h
  split at h
  · cases h
    rfl
  · exact hx e h

theorem convert_isStd {type : Ty} {e : Exn} (h : convert c type name val = .error e) :
    e.isStd = true := by
  cases type with
  | float =>
    refine bind_isStd h (c.isStd val) fun f e h => ?_
    split at h
    · cases h
      rfl
    · cases h
  | int =>
    refine catchRange_isStd h fun e h => bind_isStd h (fun _ => stol_isStd) fun v e h => ?_
    refine bind_isStd h (fun _ => numericCast_isStd) fun v e h => ?_
    cases h
  | uint =>
    refine catchRange_isStd h fun e h => bind_isStd h (fun _ => stol_isStd) fun v e h => ?_
    refine bind_isStd h (fun e h => ?_) fun v e h => ?_
    · unfold castU32 at h
      cases hcast : numericCast .u32 .i64 v with
      | error e' =>
        rw [hcast] at h
        cases h
        exact numericCast_isStd hcast
      | ok w =>
        rw [hcast] at h
        cases h
    · cases h
  | string => cases h
  | bool =>
    cases h
    rfl

theorem accept_isStd {e : Exn} (h : a.accept c name val = .error e) : e.isStd = true := by
  refine bind_isStd h (fun e h => ?_) fun v e h => ?_
  · unfold BaseArg.read at h
    split at h
    · cases h
    · exact convert_isStd h
  · split at h
    · cases h
      rfl
    · cases h

section
variable {k : UInt32}

theorem lookup_cases (name : Bytes) (k : UInt32) (p : ArgParser F) :
    (∃ m a k', lookup name k p = .ok (m, k') p ∧ p.options[m]? = some a) ∨
      ∃ e, lookup name k p = .error e p ∧ e.isStd = true := by
  have hget : ∀ {q : BaseArg F → Bool} {m : Nat}, p.options.findIdx? q = some m →
      ∃ a, p.options[m]? = some a := fun h => by
    obtain ⟨hm, -⟩ := List.findIdx?_eq_some_iff_getElem.1 h
    exact ⟨_, List.getElem?_eq_getElem hm⟩
  simp only [lookup, bind, EStateM.bind, get_run]
  cases hfind : p.find name with
  | some m =>
    obtain ⟨a, ha⟩ := hget hfind
    exact .inl ⟨m, a, k, rfl, ha⟩
  | none =>
    cases hposition : p.findPosition k with
    | some m =>
      obtain ⟨a, ha⟩ := hget hposition
      exact .inl ⟨m, a, k + 1, rfl, ha⟩
    | none =>
      cases hcollecting : p.findCollecting with
      | some m =>
        obtain ⟨a, ha⟩ := hget hcollecting
        exact .inl ⟨m, a, k + 1, rfl, ha⟩
      | none => exact .inr ⟨_, rfl, rfl⟩

/-- A turn moves on or throws. -/
theorem turn_cases (hi : i < argv.length) :
    wp (turn c argv i k) p (fun r _ => i ≤ r.1) fun e _ => e.isStd = true := by
  have hname := List.getElem?_eq_getElem hi
  have hargAt : argAt argv i = .ok argv[i] := by rw [argAt, hname]
  have hsettle : ∀ {m j : Nat} {k' : UInt32} {a : BaseArg F} {name val : Bytes}, i ≤ j →
      turn c argv i k p = settle p m (j, k') (a.accept c name val) →
      wp (turn c argv i k) p (fun r _ => i ≤ r.1) fun e _ => e.isStd = true := by
    intro m j k' a name val hj h
    rw [wp, h]
    cases haccept : a.accept c name val with
    | ok b => exact hj
    | error e => exact accept_isStd haccept
  rcases lookup_cases argv[i] k p with ⟨m, a, k', hlookup, ha⟩ | ⟨e, hlookup, hstd⟩
  · by_cases hself : a.type = .bool ∨ (a.position.isSome || a.collecting) = true
    · exact hsettle (Nat.le_refl i) (turn_self hname hlookup ha hself)
    · rw [not_or, Bool.not_eq_true] at hself
      by_cases hlast : i + 1 < argv.length
      · exact hsettle (Nat.le_succ i)
          (turn_next hname (List.getElem?_eq_getElem hlast) hlookup ha hself.1 hself.2)
      · have hderef : (deref m : ParseM F (BaseArg F)) p = .ok a p := by
          simp only [deref, bind, EStateM.bind, get_run, ha]
          rfl
        rw [wp]
        unfold turn
        rw [run_lift_bind hargAt, run_bind hlookup]
        dsimp only
        rw [run_bind hderef, if_neg hself.1, if_neg (by simp [hself.2]), if_pos (by omega)]
        rfl
  · rw [wp]
    unfold turn
    rw [run_lift_bind hargAt]
    simp only [bind, EStateM.bind, hlookup]
    exact hstd

theorem parseFrom_isStd {fuel : Nat} (hi : i ≤ argv.length ∨ 0 < fuel)
    (hfuel : argv.length < i + fuel) :
    wp (parseFrom c argv fuel i k) p (fun _ _ => True) fun e _ => e.isStd = true := by
  induction fuel generalizing i k p with
  | zero => omega
  | succ fuel ih =>
    rw [parseFrom]
    by_cases hlt : i < argv.length
    · rw [if_pos hlt, wp_bind]
      refine wp_mono (turn_cases hlt) (fun r p₁ hr => ?_) fun _ _ he => he
      exact ih (by omega) (by omega)
    · rw [if_neg hlt]
      trivial

end

theorem foldlM_isStd {α β : Type} {f : β → α → Except Exn β} {xs : List α} {y : β} {e : Exn}
    (h : xs.foldlM f y = .error e) (hf : ∀ y x e, f y x = .error e → e.isStd = true) :
    e.isStd = true := by
  induction xs generalizing y with
  | nil => cases h
  | cons x xs ih =>
    rw [List.foldlM_cons] at h
    cases hx : f y x with
    | error e' =>
      rw [hx] at h
      cases h
      exact hf y x e hx
    | ok y' =>
      rw [hx] at h
      exact ih h

theorem verify_isStd {e : Exn} (h : p.verifyNoDuplicatePositionals = .error e ∨
    p.verifyNoDuplicateCollecting = .error e) : e.isStd = true := by
  rcases h with h | h
  · refine bind_isStd h (fun e h => foldlM_isStd h fun positions a e h => ?_) fun _ e h => by cases h
    split at h
    · split at h
      · cases h
        rfl
      · cases h
    · cases h
  · refine bind_isStd h (fun e h => foldlM_isStd h fun count a e h => ?_) fun _ e h => by cases h
    dsimp only at h
    by_cases hcount : (if a.collecting = true then count + 1 else count) ≥ 2
    · rw [if_pos hcount] at h
      cases h
      rfl
    · rw [if_neg hcount] at h
      cases h

theorem parse_isStd (c : Floats F) (argv : List Bytes) (p : ArgParser F) :
    wp (parse c argv) p (fun _ _ => True) fun e _ => e.isStd = true := by
  have hrequired : ∀ p, wp (checkRequired (F := F)) p (fun _ _ => True) fun e _ => e.isStd = true := by
    intro p
    unfold checkRequired
    rw [wp_bind, wp_get]
    split
    · trivial
    · split
      · rfl
      · trivial
  unfold parse
  rw [wp_bind, wp_get]
  cases hparsed : p.parsed with
  | true => rfl
  | false =>
    simp only [Bool.false_eq_true, if_false, wp_bind, wp_get, wp_lift, wp_modify]
    refine ⟨fun _ _ => ⟨fun _ _ => ?_, fun e h => verify_isStd (.inr h)⟩,
      fun e h => verify_isStd (.inl h)⟩
    exact wp_mono (parseFrom_isStd (.inr (by omega)) (by omega)) (fun _ p₁ _ => hrequired p₁)
      fun _ _ he => he

/-! ## The order of the arguments -/

theorem given_congr {items' : List Item} (hnamed : a.ByName → named a items' = named a items)
    (htokens : tokens items' = tokens items) (n : Nat) :
    given os n items' a = given os n items a := by
  unfold given
  split
  · rename_i h
    exact hnamed h
  · rw [htokens]

/-- A run that does not throw gives each option the values behind its name, in order, and the free
arguments to the options that take them, in order. It throws when a text cannot be read, an option
has no room, a free argument has no option or a required option has no value. Arguments that are the
same for each option and the same free ones give the same, however they are mixed. -/
theorem parse_interleaved (c : Floats F) (cmd : Bytes) (hparsed : p.parsed = false)
    (hfresh : ∀ a ∈ p.options, a.Fresh)
    (hnames : p.options.Pairwise fun a b => ∀ name, a.Named name → ¬b.Named name)
    (hpositionals : p.verifyNoDuplicatePositionals = .ok ())
    (hcollecting : p.verifyNoDuplicateCollecting = .ok ())
    (hfits : ∀ item ∈ items, item.Fits p.options) :
    (∀ p', parse c (cmd :: texts items) p = .ok () p' ↔
      (∀ k < (tokens items).length, ∃ a ∈ p.options, Takes p.options a k) ∧ p'.parsed = true ∧
      List.Forall₂ (fun a a' => Receives c a
        (if a.ByName then named a items else free p.options a 0 (tokens items)) a')
        p.options p'.options ∧ Required p'.options) ∧
    (∀ e p', parse c (cmd :: texts items) p = .error e p' → e.isStd = true) ∧
    ∀ cmd' items', (∀ item ∈ items', item.Fits p.options) →
      (∀ a ∈ p.options, a.ByName → named a items' = named a items) → tokens items' = tokens items →
      ∀ p', parse c (cmd' :: texts items') p = .ok () p' ↔
        parse c (cmd :: texts items) p = .ok () p' := by
  have hnames' : ∀ name, OneOnly (fun a => a.Named name) p.options := fun name =>
    hnames.imp fun h => h name
  refine ⟨fun p' => parse_iff cmd hparsed hfresh hnames' hpositionals hcollecting hfits,
    fun e p' h => ?_, fun cmd' items' hfits' hnamed htokens p' => ?_⟩
  · have hstd := parse_isStd c (cmd :: texts items) p
    rw [wp, h] at hstd
    exact hstd
  · rw [parse_iff cmd hparsed hfresh hnames' hpositionals hcollecting hfits,
      parse_iff cmd' hparsed hfresh hnames' hpositionals hcollecting hfits', htokens]
    refine and_congr_right fun _ => and_congr_right fun _ => and_congr_left fun _ => ?_
    exact forall₂_congr_mem fun a ha a' => by rw [given_congr (hnamed a ha) htokens]

/-- No text is a floating point number. -/
def noFloats : Floats Empty where
  stof _ := .error (.invalidArgument "stof")
  isStd _ _ h := by cases h; rfl
  erange := false

/-- A number, a flag, a file in front and a list of more. -/
def copyParser : ArgParser Empty where
  options := [
    { option := ascii "--num".toList, type := .int, aliases := [ascii "-n".toList], multi := true },
    { option := ascii "--all".toList, type := .bool },
    { option := ascii "file".toList, type := .string, position := some 0 },
    { option := ascii "more".toList, type := .string, multi := true, collecting := true }]

def copyItems : List Item := [
  .free (ascii "a".toList), .named (ascii "-n".toList) (ascii "6".toList), .free (ascii "b".toList),
  .flag (ascii "--all".toList), .named (ascii "--num".toList) (ascii "-7".toList)]

theorem parse_interleaved_copy :
    (∀ p', parse noFloats (ascii "cp".toList :: texts copyItems) copyParser = .ok () p' ↔
      (∀ k < (tokens copyItems).length, ∃ a ∈ copyParser.options, Takes copyParser.options a k) ∧
      p'.parsed = true ∧
      List.Forall₂ (fun a a' => Receives noFloats a (if a.ByName then named a copyItems
        else free copyParser.options a 0 (tokens copyItems)) a') copyParser.options p'.options ∧
      Required p'.options) ∧
    (∀ e p', parse noFloats (ascii "cp".toList :: texts copyItems) copyParser = .error e p' →
      e.isStd = true) ∧
    ∀ cmd' items', (∀ item ∈ items', item.Fits copyParser.options) →
      (∀ a ∈ copyParser.options, a.ByName → named a items' = named a copyItems) →
      tokens items' = tokens copyItems →
      ∀ p', parse noFloats (cmd' :: texts items') copyParser = .ok () p' ↔
        parse noFloats (ascii "cp".toList :: texts copyItems) copyParser = .ok () p' :=
  parse_interleaved noFloats _ rfl (by simp [copyParser, BaseArg.Fresh])
    (List.Pairwise.imp (R := fun a b => ∀ name ∈ a.option :: a.aliases, ¬b.Named name)
      (fun h name hn => h name (by simpa [BaseArg.Named, eq_comm] using hn)) (by decide))
    rfl rfl (by simp [copyItems, Item.Fits, copyParser, BaseArg.Named, ascii, BaseArg.ByName])

example : ∃ p', parse noFloats (ascii "cp".toList :: texts copyItems) copyParser = .ok () p' ∧
    p'.options.map (·.values) = [[.int 6, .int (-7)], [.bool true], [.string (ascii "a".toList)],
      [.string (ascii "b".toList)]] :=
  ⟨_, rfl, rfl⟩

end Zit.ArgParser
