import RustStd.Vec.SpliceSpec

/-!
# When a reservation overflows

The allocator never fails here, and `none` is `Err(CapacityOverflow)`.
-/

set_option autoImplicit false

namespace RustStd.Vec
open RustStd.Machine RustStd.Slots

variable {T : Type}

section Definitions

variable (e : ElemLayout T) (s : Slots T) (len additional : ℕ)

def growExact : Option (Slots T) :=
  if e.size = 0 then none
  else if len+additional > usizeMax then none
  else if layoutArray e (len+additional) then some (s ++ free (len+additional-s.length)) else none

def needsToGrow : Bool := additional > wrappingSub (capacity e s) len

def tryReserve : Option (Slots T) :=
  if needsToGrow e s len additional then growAmortized e s len additional else some s

def tryReserveExact : Option (Slots T) :=
  if needsToGrow e s len additional then growExact e s len additional else some s

/-- When there is no room and the amortised capacity is too large, and when the request is. -/
def OverflowsExactly : Prop :=
  (tryReserve e s len additional = none ↔ s.length < len+additional ∧
    isizeMax-(e.align-1) < max (s.length*2) (len+additional)*e.size) ∧
  (tryReserveExact e s len additional = none ↔ isizeMax-(e.align-1) < (len+additional)*e.size)

/-- Nothing but a request that does not fit overflows. -/
def OverflowsOnly : Prop :=
  (tryReserve e s len additional = none ↔ isizeMax-(e.align-1) < (len+additional)*e.size) ∧
  (tryReserveExact e s len additional = none ↔ isizeMax-(e.align-1) < (len+additional)*e.size)

end Definitions

/-- The layout of elements with a size. -/
structure ElemLayout.Valid (e : ElemLayout T) : Prop where
  size_ne : e.size ≠ 0
  power : e.align ∣ 2^63
  dvd : e.align ∣ e.size
  size_le : e.size ≤ isizeMax

variable {e : ElemLayout T} {s : Slots T} {cap len : ℕ}

theorem grow_isNone (h : e.size ≠ 0) {n : ℕ} (hn : n ≤ cap) {s' : Slots T} :
    (if e.size = 0 then none else if n > usizeMax then none
      else if layoutArray e cap then some s' else none) = none ↔ layoutArray e cap = false := by
  rw [if_neg h]
  split
  · rename_i hover
    have hlayout : ¬ layoutArray e cap = true := fun hl =>
      absurd ((allocated_iff h).mpr ((layoutArray_iff h).mp hl)).le (not_le.mpr (hover.trans_le hn))
    simp [hlayout]
  · simp

theorem ElemLayout.Valid.rounded (h : e.Valid) {n : ℕ} (hn : e.align ∣ n) (hle : n ≤ isizeMax) :
    n ≤ isizeMax-(e.align-1) := by
  have hlt : n < 2^63 := Nat.lt_succ_of_le hle
  have hdiff := Nat.le_of_dvd (Nat.sub_pos_of_lt hlt) (Nat.dvd_sub h.power hn)
  unfold isizeMax
  lia

theorem layoutArray_max (h : e.Valid) :
    layoutArray e (max (minNonZeroCap e.size) cap) = layoutArray e cap := by
  have hle := Nat.le_of_dvd (Nat.pos_of_ne_zero h.size_ne) h.dvd
  have hmin : minNonZeroCap e.size*e.size ≤ isizeMax-(e.align-1) := by
    have hone := h.rounded h.dvd h.size_le
    unfold isizeMax at hone ⊢
    rw [minNonZeroCap]
    split_ifs <;> lia
  rw [layoutArray, layoutArray, decide_eq_decide]
  rcases Nat.le_total (minNonZeroCap e.size) cap with hc | hc
  · rw [Nat.max_eq_right hc]
  · rw [Nat.max_eq_left hc]
    exact iff_of_true hmin ((Nat.mul_le_mul_right _ hc).trans hmin)

theorem tryReserve_overflows (h : e.Valid) (hcap : s.length*e.size ≤ isizeMax)
    (hlen : len ≤ s.length) (additional : ℕ) : OverflowsExactly e s len additional := by
  have hfits := h.rounded (Dvd.dvd.mul_left h.dvd s.length) hcap
  have hs : Allocated e s.length := by rwa [Allocated, if_neg h.size_ne]
  have hneeds : needsToGrow e s len additional ↔ s.length < len+additional := by
    rw [needsToGrow, decide_eq_true_eq, capacity_eq hs, wrappingSub_of_le hlen hs.le]
    lia
  have hamortized : growAmortized e s len additional = none ↔ _ := grow_isNone h.size_ne (by lia)
  have hexact : growExact e s len additional = none ↔ _ := grow_isNone h.size_ne le_rfl
  rw [layoutArray_max h] at hamortized
  rw [layoutArray, decide_eq_false_iff_not, not_le] at hamortized hexact
  rw [OverflowsExactly, tryReserve, tryReserveExact]
  split
  · rename_i hgrow
    exact ⟨hamortized.trans (and_iff_right (hneeds.mp hgrow)).symm, hexact⟩
  · rename_i hgrow
    have hroom := not_lt.mp (hneeds.not.mp hgrow)
    refine ⟨iff_of_false (by simp) fun hC => absurd hC.1 (not_lt.mpr hroom),
      iff_of_false (by simp) ?_⟩
    exact not_lt.mpr ((Nat.mul_le_mul_right _ hroom).trans hfits)

/-- Only the doubled capacity is checked, also where the request alone would fit. -/
theorem tryReserve_overflowsOnly_iff (h : e.Valid) (hcap : s.length*e.size ≤ isizeMax)
    (hlen : len ≤ s.length) (additional : ℕ) : OverflowsOnly e s len additional ↔
      ¬ (s.length < len+additional ∧ (len+additional)*e.size ≤ isizeMax-(e.align-1) ∧
        isizeMax-(e.align-1) < s.length*2*e.size) := by
  obtain ⟨hamortized, hexact⟩ := tryReserve_overflows h hcap hlen additional
  have hfits := h.rounded (Dvd.dvd.mul_left h.dvd s.length) hcap
  have hroom : len+additional ≤ s.length → (len+additional)*e.size ≤ isizeMax-(e.align-1) :=
    fun hle => (Nat.mul_le_mul_right _ hle).trans hfits
  have hmax : max (s.length*2) (len+additional)*e.size =
      max (s.length*2*e.size) ((len+additional)*e.size) :=
    max_mul_of_nonneg _ _ (Nat.zero_le _)
  rw [OverflowsOnly, hamortized, hexact, hmax]
  lia

def byte : ElemLayout Unit := ⟨1, 1, fun _ _ _ => rfl⟩

theorem tryReserve_overflowsOnly_byte : OverflowsOnly byte (free 4) 3 2 :=
  (tryReserve_overflowsOnly_iff ⟨by decide, by decide, by decide, by decide⟩ (by decide)
    (by decide) 2).mpr (by decide)

theorem tryReserve_of_length {s : Slots Unit} (hlen : s.length = 2^62) :
    tryReserve byte s (2^62) 1 = none := by
  simp [tryReserve, needsToGrow, capacity, growAmortized, layoutArray, byte, wrappingSub, isizeMax,
    usizeMax, minNonZeroCap, hlen]

/-- One more byte than half of the address space would fit. -/
theorem tryReserve_half : ¬ OverflowsOnly byte (free (2^62)) (2^62) 1 :=
  fun h => absurd (h.1.mp (tryReserve_of_length List.length_replicate)) (by decide)

end RustStd.Vec
