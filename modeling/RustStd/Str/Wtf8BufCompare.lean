import RustStd.Str.Wtf8Buf

/-!
# Comparing buffers

Equality and order of `Wtf8Buf` are derived from its fields, and the flag is one of them. The flag
depends on how a buffer was built: a copy of a slice never has it. The hash reads the bytes only.
-/

set_option autoImplicit false

namespace RustStd.Wtf8Encoding
open RustStd.Chars RustStd.Machine

/-! ## Buffers that operations build -/

def Wtf8.toOwned (slice : Wtf8) : Wtf8Buf := { bytes := slice.bytes, isKnownUtf8 := false }

def Wtf8.cloneInto (slice : Wtf8) (buf : Wtf8Buf) : Wtf8Buf :=
  { buf with bytes := slice.bytes, isKnownUtf8 := false }

inductive Built : Wtf8Buf → Prop
  | new : Built Wtf8Buf.new
  | step {w w' : Wtf8Buf} (op : Op) : Built w → step w op = some w' → Built w'
  | toOwned (slice : Wtf8) : Built slice.toOwned
  | cloneInto (slice : Wtf8) {w : Wtf8Buf} : Built w → Built (slice.cloneInto w)

theorem holds_toOwned (slice : Wtf8) : ∃ cs, Holds slice.toOwned cs := by
  obtain ⟨cs, hchain, hbytes⟩ := slice.wellFormed
  exact ⟨cs, hchain, hbytes, fun h => Bool.noConfusion h⟩

theorem built_holds {w : Wtf8Buf} (h : Built w) : ∃ cs, Holds w cs := by
  induction h with
  | new => exact ⟨[], holds_new⟩
  | @step w w' op _ hstep ih =>
    obtain ⟨cs, hcs⟩ := ih
    rcases step_holds hcs op with ⟨w₁, cs', hs, hh, -⟩ | ⟨newLen, rfl, hb⟩
    · obtain rfl := Option.some.inj (hs.symm.trans hstep)
      exact ⟨cs', hh⟩
    · simp [Wtf8Encoding.step, Wtf8Buf.truncate, hb] at hstep
  | toOwned slice => exact holds_toOwned slice
  | cloneInto slice => exact holds_toOwned slice

theorem built_wellFormed {w : Wtf8Buf} (h : Built w) : WellFormed w.bytes := by
  obtain ⟨cs, hcs⟩ := built_holds h
  exact ⟨cs, hcs.chain, hcs.bytes⟩

def Wtf8Buf.deref (w : Wtf8Buf) (h : Built w) : Wtf8 := ⟨w.bytes, built_wellFormed h⟩

/-! ## Equality, order and hash -/

def cmpBytes : List UInt8 → List UInt8 → Ordering
  | [], [] => .eq
  | [], _ :: _ => .lt
  | _ :: _, [] => .gt
  | x :: l, y :: l' => (compare x y).then (cmpBytes l l')

def Wtf8.eq (a b : Wtf8) : Bool := a.bytes == b.bytes

def Wtf8.cmp (a b : Wtf8) : Ordering := cmpBytes a.bytes b.bytes

inductive HashCall
  | write (bytes : List UInt8)
  | writeU8 (i : UInt8)
  deriving DecidableEq

namespace Wtf8Buf

def eq (a b : Wtf8Buf) : Bool := a.bytes == b.bytes && a.isKnownUtf8 == b.isKnownUtf8

def cmp (a b : Wtf8Buf) : Ordering :=
  (cmpBytes a.bytes b.bytes).then (compare a.isKnownUtf8 b.isKnownUtf8)

def hash (a : Wtf8Buf) : List HashCall := [.write a.bytes, .writeU8 0xfe]

end Wtf8Buf

theorem cmpBytes_eq_iff {l l' : List UInt8} : cmpBytes l l' = .eq ↔ l = l' := by
  induction l generalizing l' with
  | nil =>
    cases l' with
    | nil => exact iff_of_true rfl rfl
    | cons y l' => exact iff_of_false Ordering.noConfusion (List.cons_ne_nil y l').symm
  | cons x l ih =>
    cases l' with
    | nil => exact iff_of_false Ordering.noConfusion (List.cons_ne_nil x l)
    | cons y l' =>
      rw [cmpBytes, Ordering.then_eq_eq, ih, List.cons.injEq]
      exact and_congr_left' Std.compare_eq_iff_eq

/-- The comparisons of two buffers are those of their bytes, and of their slices. -/
structure ComparesContents (a b : Wtf8Buf) : Prop where
  eq : a.eq b = true ↔ a.bytes = b.bytes
  cmp : a.cmp b = cmpBytes a.bytes b.bytes
  hash : a.eq b = true → a.hash = b.hash
  slices : ∀ ha hb, a.eq b = (a.deref ha).eq (b.deref hb) ∧ a.cmp b = (a.deref ha).cmp (b.deref hb)

theorem eq_iff (a b : Wtf8Buf) :
    a.eq b = true ↔ a.bytes = b.bytes ∧ a.isKnownUtf8 = b.isKnownUtf8 := by
  rw [Wtf8Buf.eq, Bool.and_eq_true, beq_iff_eq, beq_iff_eq]

theorem cmp_of_agree {a b : Wtf8Buf} (h : a.bytes = b.bytes → a.isKnownUtf8 = b.isKnownUtf8) :
    a.cmp b = cmpBytes a.bytes b.bytes := by
  unfold Wtf8Buf.cmp
  by_cases hb : a.bytes = b.bytes
  · rw [h hb, Std.compare_eq_iff_eq.mpr rfl]
    cases cmpBytes a.bytes b.bytes <;> rfl
  · have hne := mt cmpBytes_eq_iff.mp hb
    cases hc : cmpBytes a.bytes b.bytes with
    | lt => rfl
    | eq => exact absurd hc hne
    | gt => rfl

theorem agree_iff {a b : Wtf8Buf} :
    (a.bytes = b.bytes → a.isKnownUtf8 = b.isKnownUtf8) ↔
      ¬ (a.bytes = b.bytes ∧ a.isKnownUtf8 ≠ b.isKnownUtf8) := by
  rw [not_and, not_not]

theorem utf8_of_flags {a b : Wtf8Buf} (ha : Built a) (hb : Built b) (h : a.bytes = b.bytes)
    (hflag : a.isKnownUtf8 ≠ b.isKnownUtf8) : Utf8Grammar.WellFormed a.bytes := by
  obtain ⟨cs, hcs⟩ := built_holds ha
  obtain ⟨ds, hds⟩ := built_holds hb
  cases hk : a.isKnownUtf8 with
  | true =>
    rw [hcs.bytes]
    exact encode_wellFormed (hcs.known hk)
  | false =>
    have hk' : b.isKnownUtf8 = true := by
      rw [hk] at hflag
      exact Bool.eq_true_of_not_eq_false hflag.symm
    rw [h, hds.bytes]
    exact encode_wellFormed (hds.known hk')

/-- Buffers are compared by their contents unless equal bytes have different flags, and then the bytes
are UTF-8. -/
theorem comparesContents_iff {a b : Wtf8Buf} (ha : Built a) (hb : Built b) :
    (ComparesContents a b ↔ ¬ (a.bytes = b.bytes ∧ a.isKnownUtf8 ≠ b.isKnownUtf8)) ∧
      (¬ ComparesContents a b → Utf8Grammar.WellFormed a.bytes) := by
  have hiff : ComparesContents a b ↔ ¬ (a.bytes = b.bytes ∧ a.isKnownUtf8 ≠ b.isKnownUtf8) := by
    constructor
    · rintro h ⟨hbytes, hflag⟩
      exact hflag ((eq_iff a b).mp (h.eq.mpr hbytes)).2
    · intro h
      have hagree := agree_iff.mpr h
      have heq : a.eq b = true ↔ a.bytes = b.bytes :=
        (eq_iff a b).trans ⟨And.left, fun hbytes => ⟨hbytes, hagree hbytes⟩⟩
      refine ⟨heq, cmp_of_agree hagree, fun h => ?_, fun ha hb => ⟨?_, cmp_of_agree hagree⟩⟩
      · rw [Wtf8Buf.hash, heq.mp h, Wtf8Buf.hash]
      · rw [Bool.eq_iff_iff, heq, Wtf8.eq, beq_iff_eq]
        rfl
  refine ⟨hiff, fun hnot => ?_⟩
  obtain ⟨hbytes, hflag⟩ := not_not.mp (mt hiff.mpr hnot)
  exact utf8_of_flags ha hb hbytes hflag

def letterStr : Str where
  bytes := [0x61]
  wellFormed := Utf8Grammar.wellFormed_ascii fun b hb => by
    rw [List.mem_singleton.mp hb]
    decide
  len_le := by simp [isizeMax]

def letterSlice : Wtf8 :=
  ⟨[0x61], [⟨0x61, Nat.le_of_ble_eq_true rfl⟩], List.isChain_singleton _, rfl⟩

theorem built_letters : Built (Wtf8Buf.fromStr letterStr) ∧ Built letterSlice.toOwned :=
  ⟨.step (.fromStr letterStr) .new rfl, .toOwned letterSlice⟩

theorem comparesContents_letters :
    Utf8Grammar.WellFormed (Wtf8Buf.fromStr letterStr).bytes := by
  have h := comparesContents_iff built_letters.1 built_letters.2
  exact h.2 (mt h.1.mp (not_not.mpr ⟨rfl, by decide⟩))

theorem fromStr_ne_toOwned :
    ¬ ∀ a b : Wtf8Buf, Built a → Built b → ComparesContents a b := by
  intro h
  have heq := (h _ _ built_letters.1 built_letters.2).eq.mpr rfl
  exact absurd heq (by decide)

end RustStd.Wtf8Encoding
