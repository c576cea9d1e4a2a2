import RustStd.Lib.Machine
import RustStd.Lib.Unwind

/-!
# Slots that own their values

A slot holds a value or is free. A value is moved out of its slot once, and only a
free slot is filled, so an access that would use a value twice or lose one fails. A
copy of a range moves its values, and the ranges may overlap.
-/

set_option autoImplicit false

namespace RustStd

abbrev Slots (T : Type) : Type := List (Option T)

namespace Slots

variable {T : Type}

def live (l : List T) : Slots T := l.map some

def free (n : ℕ) : Slots T := List.replicate n none

/-- The values of slots none of which is free. -/
def contents : Slots T → Option (List T)
  | [] => some []
  | some x :: s => (contents s).map (x :: ·)
  | none :: _ => none

/-- The value of a slot stays there. -/
def peek (s : Slots T) (i : ℕ) : Option T := s[i]?.join

/-- The value of a slot is moved out. -/
def read (s : Slots T) (i : ℕ) : Option (T × Slots T) :=
  (peek s i).map fun x => (x, s.set i none)

/-- The values of a range are moved out. -/
def lift (s : Slots T) (src n : ℕ) : Option (List T × Slots T) :=
  if src+n ≤ s.length then
    (contents ((s.drop src).take n)).map fun l => (l, s.take src ++ free n ++ s.drop (src+n))
  else none

/-- A range of free slots is filled. -/
def place (s : Slots T) (dst : ℕ) (l : List T) : Option (Slots T) :=
  if dst+l.length ≤ s.length ∧ ((s.drop dst).take l.length).all Option.isNone = true then
    some (s.take dst ++ live l ++ s.drop (dst+l.length))
  else none

/-- `ptr::copy` -/
def copy (s : Slots T) (src dst n : ℕ) : Option (Slots T) := do
  let (l, s) ← lift s src n
  place s dst l

/-- `ptr::copy_nonoverlapping` -/
def copyNonoverlapping (s : Slots T) (src dst n : ℕ) : Option (Slots T) :=
  if src+n ≤ dst ∨ dst+n ≤ src then copy s src dst n else none

/-! ## Ranges -/

@[simp] theorem length_live (l : List T) : (live l).length = l.length := List.length_map _

@[simp] theorem length_free (n : ℕ) : (free n : Slots T).length = n := List.length_replicate

theorem live_nil : live ([] : List T) = [] := rfl

theorem live_cons (x : T) (l : List T) : live (x :: l) = some x :: live l := rfl

theorem live_append (l l' : List T) : live (l ++ l') = live l ++ live l' := List.map_append

theorem free_zero : (free 0 : Slots T) = [] := rfl

theorem free_succ (n : ℕ) : (free (n+1) : Slots T) = none :: free n := rfl

theorem free_add (m n : ℕ) : (free (m+n) : Slots T) = free m ++ free n :=
  (List.replicate_append_replicate).symm

theorem free_comm (m n : ℕ) : (free m ++ free n : Slots T) = free n ++ free m := by
  rw [← free_add, ← free_add, Nat.add_comm]

@[simp] theorem contents_live (l : List T) : contents (live l) = some l := by
  induction l with
  | nil => rfl
  | cons x l ih => rw [live_cons, contents, ih, Option.map_some]

theorem all_free (n : ℕ) : (free n : Slots T).all Option.isNone = true := by
  induction n with
  | zero => rfl
  | succ n ih => rw [free_succ, List.all_cons, ih, Option.isNone_none, Bool.and_true]

theorem range_append {a s b : Slots T} {i n : ℕ} (hi : a.length = i) (hn : s.length = n) :
    ((a ++ s ++ b).drop i).take n = s := by
  rw [List.append_assoc, ← hi, List.drop_left, ← hn, List.take_left]

theorem replace_range {a s b w : Slots T} {i n : ℕ} (hi : a.length = i) (hn : s.length = n) :
    (a ++ s ++ b).take i ++ w ++ (a ++ s ++ b).drop (i+n) = a ++ w ++ b := by
  rw [List.append_assoc a s b, ← hi, List.take_left, ← hn, ← List.append_assoc a s b,
    ← List.length_append, List.drop_left]

theorem peek_append {a b : Slots T} {x : T} {i : ℕ} (hi : a.length = i) :
    peek (a ++ some x :: b) i = some x := by
  rw [peek, ← hi, List.getElem?_append_right le_rfl, Nat.sub_self]
  rfl

theorem set_append {a b : Slots T} {x y : Option T} {i : ℕ} (hi : a.length = i) :
    (a ++ x :: b).set i y = a ++ y :: b := by
  rw [← hi, List.set_append_right _ _ le_rfl, Nat.sub_self]
  rfl

theorem read_append {a b : Slots T} {x : T} {i : ℕ} (hi : a.length = i) :
    read (a ++ some x :: b) i = some (x, a ++ none :: b) := by
  rw [read, peek_append hi, set_append hi]
  rfl

theorem lift_append {a b : Slots T} {l : List T} {i n : ℕ} (hi : a.length = i)
    (hn : l.length = n) : lift (a ++ live l ++ b) i n = some (l, a ++ free n ++ b) := by
  have hlen : (live l).length = n := (length_live l).trans hn
  rw [lift, if_pos, range_append hi hlen, contents_live, replace_range hi hlen]
  · rfl
  · rw [List.length_append, List.length_append]
    omega

theorem place_append {a b : Slots T} {l : List T} {i : ℕ} (hi : a.length = i) :
    place (a ++ free l.length ++ b) i l = some (a ++ live l ++ b) := by
  have hlen := length_free (T := T) l.length
  rw [place, if_pos, replace_range hi hlen]
  constructor
  · rw [List.length_append, List.length_append]
    omega
  · rw [range_append hi hlen]
    exact all_free _

theorem copy_down {a b : Slots T} {l : List T} {i g n : ℕ} (hi : a.length = i)
    (hn : l.length = n) :
    copy (a ++ free g ++ live l ++ b) (i+g) i n = some (a ++ live l ++ free g ++ b) := by
  have hsrc : (a ++ free g : Slots T).length = i+g := by
    rw [List.length_append, length_free, hi]
  rw [copy, lift_append hsrc hn]
  subst hn
  have hplace := place_append (a := a) (b := free g ++ b) (l := l) hi
  dsimp only [some_bind]
  rw [List.append_assoc a (free g), free_comm, ← List.append_assoc, List.append_assoc _ _ b, hplace,
    ← List.append_assoc]

theorem copy_up {a b : Slots T} {l : List T} {i g n : ℕ} (hi : a.length = i)
    (hn : l.length = n) :
    copy (a ++ live l ++ free g ++ b) i (i+g) n = some (a ++ free g ++ live l ++ b) := by
  have hdst : (a ++ free g : Slots T).length = i+g := by
    rw [List.length_append, length_free, hi]
  rw [copy, List.append_assoc (a ++ live l), lift_append hi hn]
  subst hn
  have hplace := place_append (b := b) (l := l) hdst
  dsimp only [some_bind]
  rw [← hplace]
  congr 1
  rw [← List.append_assoc, List.append_assoc a, free_comm, ← List.append_assoc]

theorem copyNonoverlapping_down {a b : Slots T} {x : T} {i g : ℕ} (hi : a.length = i)
    (hg : 0 < g) :
    copyNonoverlapping (a ++ free g ++ some x :: b) (i+g) i 1 =
      some (a ++ some x :: (free g ++ b)) := by
  have hcopy := copy_down (b := b) (l := [x]) (g := g) (n := 1) hi rfl
  rw [copyNonoverlapping, if_pos (by omega)]
  simpa only [live_cons, live_nil, List.append_assoc, List.cons_append, List.nil_append] using hcopy

/-! ## A gap -/

/-- The values `l`, a gap of `n` slots, the values `r`, and `k` slots at the end. -/
def gapped (l : List T) (n : ℕ) (r : List T) (k : ℕ) : Slots T :=
  live l ++ free n ++ live r ++ free k

section Gap

variable {l r : List T} {x y : T} {i n k : ℕ}

theorem gapped_cons : gapped l n (x :: r) k = live l ++ free n ++ some x :: (live r ++ free k) := by
  rw [gapped, live_cons, List.append_assoc _ (_ :: _), List.cons_append]

theorem length_front (hi : l.length+n = i) : (live l ++ free n : Slots T).length = i := by
  rw [List.length_append, length_live, length_free, hi]

theorem peek_gapped (hi : l.length+n = i) : peek (gapped l n (x :: r) k) i = some x := by
  rw [gapped_cons, peek_append (length_front hi)]

theorem set_gapped (hi : l.length+n = i) :
    (gapped l n (x :: r) k).set i (some y) = gapped l n (y :: r) k := by
  rw [gapped_cons, gapped_cons, set_append (length_front hi)]

theorem gapped_concat : gapped (l ++ [y]) n r k = live l ++ some y :: (free n ++ live r ++ free k) := by
  rw [gapped, live_append, live_cons, live_nil]
  simp only [List.append_assoc, List.cons_append, List.nil_append]

theorem peek_gapped_last : peek (gapped (l ++ [y]) n r k) l.length = some y := by
  rw [gapped_concat, peek_append (length_live l)]

theorem set_gapped_last :
    (gapped (l ++ [y]) n r k).set l.length (some x) = gapped (l ++ [x]) n r k := by
  rw [gapped_concat, gapped_concat, set_append (length_live l)]

theorem read_gapped (hi : l.length+n = i) :
    read (gapped l n (x :: r) k) i = some (x, gapped l (n+1) r k) := by
  rw [gapped_cons, read_append (length_front hi), gapped, free_add, ← List.append_assoc]
  simp only [List.append_assoc, free_succ, free_zero, List.cons_append, List.nil_append]

theorem copyNonoverlapping_gapped (hn : 0 < n) (hi : l.length+n = i) :
    copyNonoverlapping (gapped l n (x :: r) k) i (i-n) 1 = some (gapped (l ++ [x]) n r k) := by
  obtain rfl : l.length+n = i := hi
  rw [gapped_cons, Nat.add_sub_cancel, copyNonoverlapping_down (length_live l) hn, gapped,
    live_append]
  simp only [live_cons, live_nil, List.append_assoc, List.cons_append, List.nil_append]

theorem gapped_keep : gapped l 0 (x :: r) k = gapped (l ++ [x]) 0 r k := by
  rw [gapped, gapped, live_append, live_cons, live_cons, live_nil, free_zero]
  simp only [List.append_assoc, List.cons_append, List.nil_append]

theorem gapped_zero : gapped l 0 r k = live (l ++ r) ++ free k := by
  rw [gapped, free_zero, List.append_nil, live_append]

theorem gapped_nil : gapped l n [] k = live l ++ free (n+k) := by
  rw [gapped, live_nil, List.append_nil, free_add, List.append_assoc]

theorem copy_gapped (hi : l.length+n = i) :
    copy (gapped l n r k) i (i-n) r.length = some (live (l ++ r) ++ free (n+k)) := by
  obtain rfl : l.length+n = i := hi
  rw [gapped, Nat.add_sub_cancel, copy_down (length_live l) rfl, live_append, free_add,
    List.append_assoc _ (free n)]

end Gap

end Slots

end RustStd
