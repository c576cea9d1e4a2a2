import RustStd.Lib.Checked
import RustStd.Lib.Machine
import RustStd.Lib.RoundUp

/-!
# Memory layouts

`core::alloc::Layout` with its invariant as a field. `none` is undefined
behaviour: an unchecked operation that wraps, or an unchecked constructor whose
arguments are not valid. The fields of a struct are placed by `repr_c`, the
example of `Layout::extend`.
-/

set_option autoImplicit false

namespace RustStd.Alloc
open RustStd.Checked RustStd.Machine RustStd.RoundUp

structure Alignment where
  asUsize : ℕ
  isPowerOfTwo : ∃ k < 64, asUsize = 2^k

structure LayoutError where

namespace Alignment

def new (align : ℕ) : Option Alignment :=
  if h : ∃ k < 64, align = 2^k then some ⟨align, h⟩ else none

def max (a b : Alignment) : Alignment := if a.asUsize > b.asUsize then a else b

theorem pos (a : Alignment) : 0 < a.asUsize := by
  obtain ⟨k, -, h⟩ := a.isPowerOfTwo
  rw [h]
  positivity

theorem dvd (a : Alignment) : a.asUsize ∣ 2^63 := by
  obtain ⟨k, hk, h⟩ := a.isPowerOfTwo
  rw [h]
  exact Nat.pow_dvd_pow 2 (by omega)

theorem asUsize_le (a : Alignment) : a.asUsize ≤ 2^63 := Nat.le_of_dvd (by norm_num) a.dvd

theorem dvd_of_le {a b : Alignment} (h : a.asUsize ≤ b.asUsize) : a.asUsize ∣ b.asUsize := by
  obtain ⟨i, -, hi⟩ := a.isPowerOfTwo
  obtain ⟨j, -, hj⟩ := b.isPowerOfTwo
  rw [hi, hj] at h ⊢
  exact Nat.pow_dvd_pow 2 ((Nat.pow_le_pow_iff_right (by norm_num)).mp h)

theorem max_asUsize (a b : Alignment) : (max a b).asUsize = Nat.max a.asUsize b.asUsize := by
  unfold max
  split
  · rename_i h
    exact (Nat.max_eq_left h.le).symm
  · rename_i h
    exact (Nat.max_eq_right (not_lt.mp h)).symm

theorem new_asUsize (a : Alignment) : new a.asUsize = some a := dif_pos a.isPowerOfTwo

attribute [irreducible] new

end Alignment

/-- The largest size that can be rounded up to the alignment below `isize::MAX`. -/
def maxSizeForAlign (align : Alignment) : ℕ := isizeMax+1-align.asUsize

structure Layout where
  size : ℕ
  align : Alignment
  valid : size ≤ maxSizeForAlign align

namespace Layout

def fromSizeAlignment (size : ℕ) (align : Alignment) : Except LayoutError Layout :=
  if h : size > maxSizeForAlign align then .error {} else .ok ⟨size, align, not_lt.mp h⟩

/-- The checks are those of `is_size_align_valid`. -/
def fromSizeAlign (size align : ℕ) : Except LayoutError Layout :=
  match Alignment.new align with
  | none => .error {}
  | some align => fromSizeAlignment size align

/-- Undefined behaviour unless the checks of `from_size_align` pass. -/
def fromSizeAlignUnchecked (size align : ℕ) : Option Layout := (fromSizeAlign size align).toOption

def sizeRoundedUpToCustomAlign (self : Layout) (align : Alignment) : Option ℕ := do
  let alignM1 ← sub align.asUsize 1
  let sum ← u64 (self.size+alignM1)
  return sum &&& (2^64-1-alignM1)

def paddingNeededFor (self : Layout) (align : ℕ) : Option ℕ :=
  match Alignment.new align with
  | none => some usizeMax
  | some align => do
    let lenRoundedUp ← self.sizeRoundedUpToCustomAlign align
    sub lenRoundedUp self.size

def padToAlign (self : Layout) : Option Layout := do
  let newSize ← self.sizeRoundedUpToCustomAlign self.align
  fromSizeAlignUnchecked newSize self.align.asUsize

def repeatPacked (self : Layout) (n : ℕ) : Except LayoutError Layout :=
  if self.size*n < 2^64 then fromSizeAlignment (self.size*n) self.align else .error {}

def extendPacked (self next : Layout) : Option (Except LayoutError Layout) := do
  let newSize ← u64 (self.size+next.size)
  return fromSizeAlignment newSize self.align

def extend (self next : Layout) : Option (Except LayoutError (Layout × ℕ)) := do
  let newAlign := Alignment.max self.align next.align
  let offset ← self.sizeRoundedUpToCustomAlign next.align
  let newSize ← u64 (offset+next.size)
  match fromSizeAlignment newSize newAlign with
  | .ok layout => return .ok (layout, offset)
  | .error _ => return .error {}

/-- `Layout::array`, from the layout of the element. -/
def array (element : Layout) (n : ℕ) : Option (Except LayoutError Layout) := do
  if element.size ≠ 0 ∧ n > maxSizeForAlign element.align/element.size then return .error {}
  else
    let arraySize ← u64 (element.size*n)
    let layout ← fromSizeAlignUnchecked arraySize element.align.asUsize
    return .ok layout

end Layout

def Layout.repeat (self : Layout) (n : ℕ) : Option (Except LayoutError (Layout × ℕ)) := do
  let padded ← self.padToAlign
  match padded.repeatPacked n with
  | .ok repeated => return .ok (repeated, padded.size)
  | .error _ => return .error {}

/-- The loop of `repr_c` over the fields. -/
def reprCLoop (layout : Layout) (offsets : List ℕ) :
    List Layout → Option (Except LayoutError (Layout × List ℕ))
  | [] => do
    let padded ← layout.padToAlign
    return .ok (padded, offsets)
  | field :: fields => do
    match ← layout.extend field with
    | .error e => return .error e
    | .ok (newLayout, offset) => reprCLoop newLayout (offsets ++ [offset]) fields

def reprC (fields : List Layout) : Option (Except LayoutError (Layout × List ℕ)) :=
  match Layout.fromSizeAlign 0 1 with
  | .error e => some (.error e)
  | .ok layout => reprCLoop layout [] fields

/-! ## Rounding -/

namespace Layout

theorem valid_iff (size : ℕ) (align : Alignment) :
    size ≤ maxSizeForAlign align ↔ roundUp size align.asUsize ≤ isizeMax := by
  have h := roundUp_lt_iff (n := size) align.pos align.dvd (by norm_num)
  rw [maxSizeForAlign, isizeMax, show 2^63-1+1 = 2^63 by norm_num, ← h]
  omega

theorem fromSizeAlignment_eq {size : ℕ} {align : Alignment}
    (h : roundUp size align.asUsize ≤ isizeMax) :
    fromSizeAlignment size align = .ok ⟨size, align, (valid_iff size align).mpr h⟩ := by
  rw [fromSizeAlignment, dif_neg]
  exact not_lt.mpr ((valid_iff size align).mpr h)

theorem fromSizeAlignment_error {size : ℕ} {align : Alignment}
    (h : isizeMax < roundUp size align.asUsize) : fromSizeAlignment size align = .error {} := by
  rw [fromSizeAlignment, dif_pos]
  rw [gt_iff_lt, ← not_le, valid_iff]
  omega

theorem size_le (self : Layout) : self.size ≤ isizeMax := by
  have h := self.valid
  have hpos := self.align.pos
  unfold maxSizeForAlign at h
  omega

theorem sizeRoundedUp_eq (self : Layout) (align : Alignment) :
    self.sizeRoundedUpToCustomAlign align = some (roundUp self.size align.asUsize) := by
  obtain ⟨k, hk, ha⟩ := align.isPowerOfTwo
  have hsize : self.size ≤ 2^63-1 := self.size_le
  have hle := align.asUsize_le
  have hpos := align.pos
  rw [sizeRoundedUpToCustomAlign, sub_eq hpos, some_bind,
    u64_eq (by omega), some_bind, Option.pure_def, ha, and_not_mask (by omega) hk.le, roundUp,
    Nat.add_sub_assoc Nat.one_le_two_pow]

theorem paddingNeededFor_eq (self : Layout) (align : Alignment) :
    self.paddingNeededFor align.asUsize = some (roundUp self.size align.asUsize-self.size) := by
  rw [paddingNeededFor, align.new_asUsize]
  simp only
  rw [sizeRoundedUp_eq, some_bind, sub_eq (le_roundUp _ align.pos)]

theorem roundUp_le_two_pow (self : Layout) (align : Alignment) :
    roundUp self.size align.asUsize ≤ 2^63 := by
  apply roundUp_le align.pos _ align.dvd
  exact self.size_le.trans (by decide)

theorem fromSizeAlignUnchecked_eq {size : ℕ} {align : Alignment} (h : size ≤ maxSizeForAlign align) :
    fromSizeAlignUnchecked size align.asUsize = some ⟨size, align, h⟩ := by
  simp only [fromSizeAlignUnchecked, fromSizeAlign, align.new_asUsize, fromSizeAlignment,
    dif_neg (not_lt.mpr h), Except.toOption]

theorem roundUp_self (n : ℕ) (align : Alignment) :
    roundUp (roundUp n align.asUsize) align.asUsize = roundUp n align.asUsize :=
  le_antisymm (roundUp_le align.pos le_rfl (dvd_roundUp _ _)) (le_roundUp _ align.pos)

theorem padToAlign_eq (self : Layout) : ∃ h,
    self.padToAlign = some ⟨roundUp self.size self.align.asUsize, self.align, h⟩ := by
  have h : roundUp self.size self.align.asUsize ≤ maxSizeForAlign self.align := by
    rw [valid_iff, roundUp_self, ← valid_iff]
    exact self.valid
  refine ⟨h, ?_⟩
  rw [padToAlign, sizeRoundedUp_eq, some_bind,
    fromSizeAlignUnchecked_eq h]

/-! ## Combinations -/

theorem extend_ok (self next : Layout)
    (h : roundUp (roundUp self.size next.align.asUsize+next.size)
      (Alignment.max self.align next.align).asUsize ≤ isizeMax) :
    self.extend next = some (.ok
      (⟨roundUp self.size next.align.asUsize+next.size, Alignment.max self.align next.align,
        (valid_iff _ _).mpr h⟩, roundUp self.size next.align.asUsize)) := by
  have h1 := self.roundUp_le_two_pow next.align
  have h2 : next.size ≤ 2^63-1 := next.size_le
  rw [extend, sizeRoundedUp_eq, some_bind, u64_eq (by omega),
    some_bind, fromSizeAlignment_eq h]
  rfl

theorem extend_error (self next : Layout)
    (h : isizeMax < roundUp (roundUp self.size next.align.asUsize+next.size)
      (Alignment.max self.align next.align).asUsize) :
    self.extend next = some (.error {}) := by
  have h1 := self.roundUp_le_two_pow next.align
  have h2 : next.size ≤ 2^63-1 := next.size_le
  rw [extend, sizeRoundedUp_eq, some_bind, u64_eq (by omega),
    some_bind, fromSizeAlignment_error h]
  rfl

theorem extendPacked_eq (self next : Layout) :
    self.extendPacked next = some (fromSizeAlignment (self.size+next.size) self.align) := by
  have h1 : self.size ≤ 2^63-1 := self.size_le
  have h2 : next.size ≤ 2^63-1 := next.size_le
  rw [extendPacked, u64_eq (by omega)]
  rfl

theorem array_eq (element : Layout) (n : ℕ) :
    element.array n = some (fromSizeAlignment (element.size*n) element.align) := by
  have hmax : maxSizeForAlign element.align < 2^64 := by
    have := element.align.pos
    unfold maxSizeForAlign isizeMax
    omega
  rw [array]
  split
  · rename_i h
    have hlt : maxSizeForAlign element.align < element.size*n := by
      rw [Nat.mul_comm, ← Nat.div_lt_iff_lt_mul (Nat.pos_of_ne_zero h.1)]
      exact h.2
    rw [fromSizeAlignment, dif_pos hlt]
    rfl
  · rename_i h
    have hle : element.size*n ≤ maxSizeForAlign element.align := by
      by_cases h0 : element.size = 0
      · simp [h0]
      · rw [Nat.mul_comm, ← Nat.le_div_iff_mul_le (Nat.pos_of_ne_zero h0)]
        omega
    rw [u64_eq (by omega), some_bind, fromSizeAlignUnchecked_eq hle,
      fromSizeAlignment, dif_neg (not_lt.mpr hle)]
    rfl

theorem mul_le_max_iff {align : Alignment} {size : ℕ} :
    size ≤ maxSizeForAlign align ↔ size ≤ isizeMax/align.asUsize*align.asUsize := by
  have hmax : maxSizeForAlign align = isizeMax/align.asUsize*align.asUsize := by
    obtain ⟨c, hc⟩ := align.dvd
    have hpos := align.pos
    have hc0 : 0 < c := by
      apply Nat.pos_of_ne_zero
      rintro rfl
      omega
    rw [maxSizeForAlign, isizeMax, show 2^63-1+1 = 2^63 by norm_num, hc,
      show align.asUsize*c-1 = align.asUsize*(c-1)+(align.asUsize-1) by
        obtain ⟨d, rfl⟩ : ∃ d, c = d+1 := ⟨c-1, by omega⟩
        rw [Nat.add_sub_cancel, Nat.mul_add]
        omega,
      Nat.mul_add_div hpos, Nat.div_eq_of_lt (show align.asUsize-1 < align.asUsize by omega),
      Nat.add_zero, Nat.mul_comm (c-1), Nat.mul_sub, Nat.mul_one]
  rw [hmax]

theorem repeat_eq (self : Layout) (n : ℕ) :
    self.repeat n = some
      (if h : roundUp self.size self.align.asUsize*n ≤ maxSizeForAlign self.align then
        .ok (⟨roundUp self.size self.align.asUsize*n, self.align, h⟩,
          roundUp self.size self.align.asUsize)
      else .error {}) := by
  obtain ⟨hv, hpad⟩ := self.padToAlign_eq
  have hmax : maxSizeForAlign self.align < 2^64 := by
    have := self.align.pos
    unfold maxSizeForAlign isizeMax
    omega
  rw [Layout.repeat, hpad, some_bind, repeatPacked]
  simp only
  by_cases h : roundUp self.size self.align.asUsize*n ≤ maxSizeForAlign self.align
  · rw [if_pos (by omega), dif_pos h, fromSizeAlignment, dif_neg (not_lt.mpr h)]
    rfl
  · rw [dif_neg h]
    by_cases hlt : roundUp self.size self.align.asUsize*n < 2^64
    · rw [if_pos hlt, fromSizeAlignment, dif_pos (not_le.mp h)]
      rfl
    · rw [if_neg hlt]
      rfl

end Layout

/-! ## Structs -/

/-- Every field at the least multiple of its alignment that is not below `pos`, the
end of the field before. -/
def offsetsFrom : ℕ → List Layout → List ℕ
  | _, [] => []
  | pos, f :: fs => roundUp pos f.align.asUsize ::
      offsetsFrom (roundUp pos f.align.asUsize+f.size) fs

def endFrom : ℕ → List Layout → ℕ
  | pos, [] => pos
  | pos, f :: fs => endFrom (roundUp pos f.align.asUsize+f.size) fs

def alignFrom : Alignment → List Layout → Alignment
  | a, [] => a
  | a, f :: fs => alignFrom (Alignment.max a f.align) fs

/-- The alignment of one byte. -/
def Alignment.one : Alignment := ⟨1, 0, by norm_num, rfl⟩

/-- The size of a struct: the end of its last field, rounded up to its alignment. -/
def structSize (fields : List Layout) : ℕ :=
  roundUp (endFrom 0 fields) (alignFrom .one fields).asUsize

theorem le_endFrom (pos : ℕ) (fs : List Layout) : pos ≤ endFrom pos fs := by
  induction fs generalizing pos with
  | nil => exact le_rfl
  | cons f fs ih =>
    calc pos ≤ roundUp pos f.align.asUsize := le_roundUp pos f.align.pos
      _ ≤ roundUp pos f.align.asUsize+f.size := Nat.le_add_right _ _
      _ ≤ _ := ih _

theorem le_alignFrom (a : Alignment) (fs : List Layout) : a.asUsize ≤ (alignFrom a fs).asUsize := by
  induction fs generalizing a with
  | nil => exact le_rfl
  | cons f fs ih =>
    calc a.asUsize ≤ (Alignment.max a f.align).asUsize := by
          rw [Alignment.max_asUsize]
          exact Nat.le_max_left _ _
      _ ≤ _ := ih _

/-- Fields in order, each one after the end of the one before and all before `stop`. -/
def Disjoint (start stop : ℕ) : List (Layout × ℕ) → Prop
  | [] => start ≤ stop
  | (f, offset) :: rest => start ≤ offset ∧ f.align.asUsize ∣ offset ∧
      Disjoint (offset+f.size) stop rest

theorem offsetsFrom_disjoint (pos : ℕ) (fs : List Layout) {stop : ℕ} (h : endFrom pos fs ≤ stop) :
    Disjoint pos stop (fs.zip (offsetsFrom pos fs)) := by
  induction fs generalizing pos with
  | nil => exact h
  | cons f fs ih => exact ⟨le_roundUp pos f.align.pos, dvd_roundUp pos _, ih _ h⟩

theorem reprCLoop_eq (layout : Layout) (offsets : List ℕ) (fields : List Layout) :
    ∃ r, reprCLoop layout offsets fields = some r ∧
      (roundUp (endFrom layout.size fields) (alignFrom layout.align fields).asUsize ≤ isizeMax →
        ∃ padded, r = .ok (padded, offsets ++ offsetsFrom layout.size fields) ∧
          padded.size = roundUp (endFrom layout.size fields)
            (alignFrom layout.align fields).asUsize ∧
          padded.align = alignFrom layout.align fields) ∧
      (isizeMax < roundUp (endFrom layout.size fields)
        (alignFrom layout.align fields).asUsize → r = .error {}) := by
  induction fields generalizing layout offsets with
  | nil =>
    obtain ⟨h, hpad⟩ := layout.padToAlign_eq
    refine ⟨_, by rw [reprCLoop, hpad]; rfl, fun _ => ?_, fun hlt => ?_⟩
    · exact ⟨⟨_, layout.align, h⟩, by rw [offsetsFrom, List.append_nil], rfl, rfl⟩
    · exact absurd ((Layout.valid_iff _ _).mp layout.valid) (not_le.mpr hlt)
  | cons f fields ih =>
    rw [reprCLoop]
    by_cases hfit : roundUp (roundUp layout.size f.align.asUsize+f.size)
        (Alignment.max layout.align f.align).asUsize ≤ isizeMax
    · rw [layout.extend_ok f hfit, some_bind]
      obtain ⟨r, hr, hok, herr⟩ := ih ⟨roundUp layout.size f.align.asUsize+f.size,
        Alignment.max layout.align f.align, (Layout.valid_iff _ _).mpr hfit⟩
        (offsets ++ [roundUp layout.size f.align.asUsize])
      refine ⟨r, hr, fun h => ?_, herr⟩
      obtain ⟨padded, rfl, hsize, halign⟩ := hok h
      exact ⟨padded, by simp [offsetsFrom], hsize, halign⟩
    · rw [layout.extend_error f (not_le.mp hfit), some_bind]
      refine ⟨_, rfl, fun h => absurd ?_ hfit, fun _ => rfl⟩
      exact (roundUp_mono (Alignment.pos _) (Alignment.pos _) (le_endFrom _ fields)
        (Alignment.dvd_of_le (le_alignFrom _ fields))).trans h

theorem fromSizeAlign_zero_one :
    Layout.fromSizeAlign 0 1 = .ok ⟨0, .one, Nat.zero_le _⟩ := by
  have h := Alignment.new_asUsize .one
  rw [Layout.fromSizeAlign, show (1:ℕ) = Alignment.one.asUsize from rfl, h]
  simp only [Layout.fromSizeAlignment, dif_neg (show ¬ 0 > maxSizeForAlign .one by omega)]

theorem reprC_eq (fields : List Layout) :
    ∃ r, reprC fields = some r ∧ (structSize fields ≤ isizeMax → ∃ layout,
        r = .ok (layout, offsetsFrom 0 fields) ∧ layout.size = structSize fields ∧
          layout.align = alignFrom .one fields) ∧
      (isizeMax < structSize fields → r = .error {}) := by
  rw [reprC, fromSizeAlign_zero_one]
  exact reprCLoop_eq ⟨0, .one, Nat.zero_le _⟩ [] fields

/-- Layouts of structs and arrays are exact, and nothing wraps on the way. -/
theorem layout_exact :
    (∀ fields : List Layout, ∃ r, reprC fields = some r ∧
      ((∃ x, r = .ok x) ↔ structSize fields ≤ isizeMax) ∧
      ∀ layout offsets, r = .ok (layout, offsets) →
        offsets = offsetsFrom 0 fields ∧ layout.size = structSize fields ∧
        layout.align = alignFrom .one fields ∧
        Disjoint 0 layout.size (fields.zip offsets)) ∧
    (∀ (layout : Layout) (n : ℕ), ∃ r, layout.repeat n = some r ∧
      (r = .error {} ↔ isizeMax/layout.align.asUsize*layout.align.asUsize <
        roundUp layout.size layout.align.asUsize*n) ∧
      ∀ repeated stride, r = .ok (repeated, stride) →
        stride = roundUp layout.size layout.align.asUsize ∧ repeated.size = stride*n ∧
        repeated.align = layout.align) ∧
    (∀ (layout : Layout) (align : Alignment),
      layout.sizeRoundedUpToCustomAlign align = some (roundUp layout.size align.asUsize) ∧
      layout.paddingNeededFor align.asUsize =
        some (roundUp layout.size align.asUsize-layout.size)) ∧
    (∀ (layout next : Layout) (n : ℕ), (layout.extend next).isSome ∧
      (layout.extendPacked next).isSome ∧ (layout.array n).isSome) ∧
    ∀ layout : Layout, roundUp layout.size layout.align.asUsize ≤ isizeMax := by
  refine ⟨fun fields => ?_, fun layout n => ?_,
    fun layout align => ⟨layout.sizeRoundedUp_eq align, layout.paddingNeededFor_eq align⟩,
    fun layout next n => ?_, fun layout => (Layout.valid_iff _ _).mp layout.valid⟩
  · obtain ⟨r, hr, hok, herr⟩ := reprC_eq fields
    refine ⟨r, hr, ⟨?_, ?_⟩, ?_⟩
    · rintro ⟨x, rfl⟩
      by_contra h
      simpa using herr (not_le.mp h)
    · intro h
      obtain ⟨layout, hl, -⟩ := hok h
      exact ⟨_, hl⟩
    · rintro layout offsets rfl
      have hle : structSize fields ≤ isizeMax := by
        by_contra h
        simpa using herr (not_le.mp h)
      obtain ⟨layout', hl, hsize, halign⟩ := hok hle
      obtain ⟨rfl, rfl⟩ : layout = layout' ∧ offsets = offsetsFrom 0 fields := by simpa using hl
      refine ⟨rfl, hsize, halign, offsetsFrom_disjoint 0 fields ?_⟩
      rw [hsize]
      exact le_roundUp _ (Alignment.pos _)
  · refine ⟨_, layout.repeat_eq n, ?_, ?_⟩
    · rw [← not_le, ← Layout.mul_le_max_iff]
      split
      · rename_i h
        simpa using h
      · rename_i h
        simpa using h
    · intro repeated stride h
      split at h
      · obtain ⟨rfl, rfl⟩ : _ = repeated ∧ _ = stride := by simpa using h
        exact ⟨rfl, rfl, rfl⟩
      · simp at h
  · rw [layout.extendPacked_eq, layout.array_eq]
    refine ⟨?_, rfl, rfl⟩
    by_cases h : roundUp (roundUp layout.size next.align.asUsize+next.size)
        (Alignment.max layout.align next.align).asUsize ≤ isizeMax
    · rw [layout.extend_ok next h]
      rfl
    · rw [layout.extend_error next (not_le.mp h)]
      rfl

end RustStd.Alloc
