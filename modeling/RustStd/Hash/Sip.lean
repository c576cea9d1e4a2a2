import RustStd.Lib.Checked

/-!
# SipHash

The streaming hasher of `core::hash::sip`. Its state after any writes is a
function of the bytes written so far, and `finish` gives the SipHash of them,
which is defined over the padded message. A load outside of the slice is `none`;
`usize` additions wrap.
-/

set_option autoImplicit false

namespace RustStd.Sip
open RustStd.Checked

structure State where
  v0 : BitVec 64
  v1 : BitVec 64
  v2 : BitVec 64
  v3 : BitVec 64

def compress (s : State) : State :=
  let v0 := s.v0+s.v1
  let v2 := s.v2+s.v3
  let v1 := s.v1.rotateLeft 13
  let v1 := v1^^^v0
  let v3 := s.v3.rotateLeft 16
  let v3 := v3^^^v2
  let v0 := v0.rotateLeft 32
  let v2 := v2+v1
  let v0 := v0+v3
  let v1 := v1.rotateLeft 17
  let v1 := v1^^^v2
  let v3 := v3.rotateLeft 21
  let v3 := v3^^^v0
  let v2 := v2.rotateLeft 32
  ⟨v0, v1, v2, v3⟩

inductive Rounds
  | sip13
  | sip24

def Rounds.cRounds : Rounds → State → State
  | sip13, s => compress s
  | sip24, s => compress (compress s)

def Rounds.dRounds : Rounds → State → State
  | sip13, s => compress (compress (compress s))
  | sip24, s => compress (compress (compress (compress s)))

/-- The number whose bytes, the least significant one first, are the list. -/
def leWord (bs : List UInt8) : BitVec 64 := BitVec.ofNat 64 (Nat.ofDigits 256 (bs.map UInt8.toNat))

def loadIntLe (buf : List UInt8) (i size : ℕ) : Option (BitVec 64) :=
  if i+size ≤ buf.length then some (leWord ((buf.drop i).take size)) else none

/-- One of the loads of `u8to64_le`, at byte `i` of the output, if there are bytes for it. -/
def u8to64Step (buf : List UInt8) (start len size : ℕ) :
    ℕ × BitVec 64 → Option (ℕ × BitVec 64)
  | (i, out) =>
    if i+(size-1) < len then do
      let w ← loadIntLe buf (start+i) size
      return (i+size, out ||| w <<< (i*8))
    else some (i, out)

def u8to64Le (buf : List UInt8) (start len : ℕ) : Option (BitVec 64) := do
  if ¬ len < 8 then none
  else
    let st ← u8to64Step buf start len 4 (0, 0)
    let st ← u8to64Step buf start len 2 st
    let (i, out) ← u8to64Step buf start len 1 st
    if i = len then return out else none

structure Hasher where
  k0 : BitVec 64
  k1 : BitVec 64
  length : ℕ
  state : State
  tail : BitVec 64
  ntail : ℕ

namespace Hasher

def reset (h : Hasher) : Hasher :=
  { h with
    length := 0
    state := ⟨h.k0^^^0x736f6d6570736575#64, h.k1^^^0x646f72616e646f6d#64,
      h.k0^^^0x6c7967656e657261#64, h.k1^^^0x7465646279746573#64⟩
    ntail := 0 }

def newWithKeys (key0 key1 : BitVec 64) : Hasher :=
  reset ⟨key0, key1, 0, ⟨0, 0, 0, 0⟩, 0, 0⟩

end Hasher

def mix (S : Rounds) (s : State) (m : BitVec 64) : State :=
  let s := S.cRounds { s with v3 := s.v3^^^m }
  { s with v0 := s.v0^^^m }

def writeLoop (S : Rounds) (msg : List UInt8) (stop : ℕ) : ℕ → ℕ → State → Option (ℕ × State)
  | 0, _, _ => none
  | fuel+1, i, s =>
    if i < stop then do
      let mi ← loadIntLe msg i 8
      writeLoop S msg stop fuel (i+8) (mix S s mi)
    else some (i, s)

namespace Hasher

/-- The rest of `write`, when the buffered tail is flushed. -/
def writeRest (S : Rounds) (h : Hasher) (msg : List UInt8) (needed : ℕ) : Option Hasher := do
  let len ← sub msg.length needed
  let left := len &&& 7
  let stop ← sub len left
  let (i, state) ← writeLoop S msg stop (msg.length+1) needed h.state
  let tail ← u8to64Le msg i left
  return { h with state, tail, ntail := left }

def write (S : Rounds) (h : Hasher) (msg : List UInt8) : Option Hasher := do
  let h := { h with length := (h.length+msg.length)%2^64 }
  if h.ntail ≠ 0 then
    let needed ← sub 8 h.ntail
    let w ← u8to64Le msg 0 (min msg.length needed)
    let h := { h with tail := h.tail ||| w <<< (8*h.ntail) }
    if msg.length < needed then return { h with ntail := h.ntail+msg.length }
    else writeRest S { h with state := mix S h.state h.tail, ntail := 0 } msg needed
  else writeRest S h msg 0

def writeStr (S : Rounds) (h : Hasher) (s : List UInt8) : Option Hasher := do
  let h ← h.write S s
  h.write S [0xff]

def finish (S : Rounds) (h : Hasher) : BitVec 64 :=
  let b := (BitVec.ofNat 64 h.length &&& 0xff#64) <<< 56 ||| h.tail
  let state := mix S h.state b
  let state := S.dRounds { state with v2 := state.v2^^^0xff#64 }
  state.v0^^^state.v1^^^state.v2^^^state.v3

end Hasher

/-! ## The reference -/

def sipRound (s : State) : State :=
  let v0 := s.v0+s.v1
  let v1 := s.v1.rotateLeft 13^^^v0
  let v0 := v0.rotateLeft 32
  let v2 := s.v2+s.v3
  let v3 := s.v3.rotateLeft 16^^^v2
  let v0 := v0+v3
  let v3 := v3.rotateLeft 21^^^v0
  let v2 := v2+v1
  let v1 := v1.rotateLeft 17^^^v2
  let v2 := v2.rotateLeft 32
  ⟨v0, v1, v2, v3⟩

def compression (c : ℕ) (s : State) (m : BitVec 64) : State :=
  let s := sipRound^[c] { s with v3 := s.v3^^^m }
  { s with v0 := s.v0^^^m }

def word (m : List UInt8) (i : ℕ) : BitVec 64 := leWord ((m.drop (8*i)).take 8)

/-- The first words of a message, compressed one after the other. -/
def compressWords (c : ℕ) (s : State) (m : List UInt8) : ℕ → State
  | 0 => s
  | n+1 => compression c (compressWords c s m n) (word m n)

/-- Zeros up to the last byte of a word, which is the length modulo 256. -/
def padded (m : List UInt8) : List UInt8 :=
  m ++ List.replicate (7-m.length%8) 0 ++ [UInt8.ofNat m.length]

def initial (k0 k1 : BitVec 64) : State :=
  ⟨k0^^^0x736f6d6570736575#64, k1^^^0x646f72616e646f6d#64, k0^^^0x6c7967656e657261#64,
    k1^^^0x7465646279746573#64⟩

def sipHash (c d : ℕ) (k0 k1 : BitVec 64) (m : List UInt8) : BitVec 64 :=
  let s := compressWords c (initial k0 k1) (padded m) (m.length/8+1)
  let s := sipRound^[d] { s with v2 := s.v2^^^0xff#64 }
  s.v0^^^s.v1^^^s.v2^^^s.v3

def Rounds.c : Rounds → ℕ
  | sip13 => 1
  | sip24 => 2

def Rounds.d : Rounds → ℕ
  | sip13 => 3
  | sip24 => 4

theorem cRounds_eq (S : Rounds) (s : State) : S.cRounds s = sipRound^[S.c] s := by
  cases S with
  | sip13 => rfl
  | sip24 => rfl

theorem dRounds_eq (S : Rounds) (s : State) : S.dRounds s = sipRound^[S.d] s := by
  cases S with
  | sip13 => rfl
  | sip24 => rfl

theorem mix_eq (S : Rounds) (s : State) (m : BitVec 64) : mix S s m = compression S.c s m := by
  rw [mix, compression, cRounds_eq]

/-! ## Words of bytes -/

theorem ofDigits_lt (bs : List UInt8) : Nat.ofDigits 256 (bs.map UInt8.toNat) < 2^(8*bs.length) := by
  have h := Nat.ofDigits_lt_base_pow_length (b := 256) (l := bs.map UInt8.toNat) (by norm_num) (by
    intro x hx
    obtain ⟨b, -, rfl⟩ := List.mem_map.mp hx
    exact b.toNat_lt)
  rw [pow_mul]
  simpa using h

theorem leWord_append {a b : List UInt8} (h : a.length+b.length ≤ 8) :
    leWord (a ++ b) = leWord a ||| leWord b <<< (8*a.length) := by
  have ha := ofDigits_lt a
  have hb := ofDigits_lt b
  have hpow : (2:ℕ)^(8*a.length)*2^(8*b.length) ≤ 2^64 := by
    rw [← pow_add]
    exact Nat.pow_le_pow_right (by norm_num) (by lia)
  have hle : (2:ℕ)^(8*a.length) ≤ 2^64 := Nat.pow_le_pow_right (by norm_num) (by lia)
  have hle' : (2:ℕ)^(8*b.length) ≤ 2^64 := Nat.pow_le_pow_right (by norm_num) (by lia)
  have h256 : 256^a.length = 2^(8*a.length) := by
    rw [pow_mul]
    norm_num
  apply BitVec.eq_of_toNat_eq
  simp only [leWord, List.map_append, Nat.ofDigits_append, List.length_map, BitVec.toNat_or,
    BitVec.toNat_shiftLeft, BitVec.toNat_ofNat, Nat.shiftLeft_eq, h256]
  generalize Nat.ofDigits 256 (a.map UInt8.toNat) = x at *
  generalize Nat.ofDigits 256 (b.map UInt8.toNat) = y at *
  have hy : 2^(8*a.length)*y+2^(8*a.length) ≤ 2^64 := by
    calc 2^(8*a.length)*y+2^(8*a.length) = 2^(8*a.length)*(y+1) := by ring
      _ ≤ 2^(8*a.length)*2^(8*b.length) := Nat.mul_le_mul_left _ hb
      _ ≤ 2^64 := hpow
  rw [Nat.mod_eq_of_lt (show x < 2^64 by lia), Nat.mod_eq_of_lt (show y < 2^64 by lia),
    Nat.mul_comm y, Nat.mod_eq_of_lt (show 2^(8*a.length)*y < 2^64 by lia), Nat.or_comm,
    ← Nat.two_pow_add_eq_or_of_lt ha, Nat.mod_eq_of_lt (by lia), Nat.add_comm]

theorem leWord_take_add {t : List UInt8} {i n : ℕ} (h : i+n ≤ t.length) (h8 : t.length ≤ 8) :
    leWord (t.take i) ||| leWord ((t.drop i).take n) <<< (i*8) = leWord (t.take (i+n)) := by
  rw [List.take_add, leWord_append, List.length_take_of_le (by lia), Nat.mul_comm]
  rw [List.length_take, List.length_take, List.length_drop]
  lia

section Load

variable {buf : List UInt8} {start len : ℕ} (h8 : len < 8) (h : start+len ≤ buf.length)
include h8 h

theorem u8to64Step_eq (size : ℕ) {i : ℕ} (hsize : 0 < size) (hi : i ≤ len) (hleft : len < i+2*size) :
    ∃ j ≤ len, len < j+size ∧
      u8to64Step buf start len size (i, leWord (((buf.drop start).take len).take i)) =
        some (j, leWord (((buf.drop start).take len).take j)) := by
  have ht : ((buf.drop start).take len).length = len := by
    rw [List.length_take, List.length_drop]
    lia
  rw [u8to64Step]
  by_cases hlt : i+(size-1) < len
  · have hload : loadIntLe buf (start+i) size =
        some (leWord ((((buf.drop start).take len).drop i).take size)) := by
      rw [loadIntLe, if_pos (by lia), List.drop_take, List.take_take, List.drop_drop,
        min_eq_left (by lia)]
    refine ⟨i+size, by lia, by lia, ?_⟩
    rw [if_pos hlt, hload, Option.bind_eq_bind, Option.bind_some,
      leWord_take_add (by lia) (by lia)]
    rfl
  · exact ⟨i, hi, by lia, if_neg hlt⟩

theorem u8to64Le_eq : u8to64Le buf start len = some (leWord ((buf.drop start).take len)) := by
  obtain ⟨i, hi, hleft, h4⟩ := u8to64Step_eq h8 h 4 (i := 0) (by norm_num)
    (Nat.zero_le _) (by lia)
  obtain ⟨j, hj, hleft', h2⟩ := u8to64Step_eq h8 h 2 (by norm_num) hi (by lia)
  obtain ⟨k, hk, hleft'', h1⟩ := u8to64Step_eq h8 h 1 (by norm_num) hj (by lia)
  obtain rfl : k = len := by lia
  rw [u8to64Le, if_neg (not_not.mpr h8)]
  change u8to64Step buf start k 4 (0, 0) = _ at h4
  rw [h4, Option.bind_eq_bind, Option.bind_some, h2]
  simp only [Option.bind_some]
  rw [h1]
  simp only [Option.bind_some, if_true, List.take_take, min_self, Option.pure_def]

end Load

/-! ## The words of a message -/

theorem word_append_left {a b : List UInt8} {i : ℕ} (h : 8*i+8 ≤ a.length) :
    word (a ++ b) i = word a i := by
  rw [word, word, List.drop_append_of_le_length (by lia), List.take_append_of_le_length]
  rw [List.length_drop]
  lia

theorem word_append_right {a b : List UInt8} {q k j : ℕ} (hq : 8*q = a.length+k) :
    word (a ++ b) (q+j) = leWord ((b.drop (k+8*j)).take 8) := by
  rw [word, List.drop_append, List.drop_eq_nil_of_le (by lia), List.nil_append]
  congr 3
  lia

theorem compressWords_append {a b : List UInt8} {n : ℕ} (c : ℕ) (s : State)
    (h : 8*n ≤ a.length) : compressWords c s (a ++ b) n = compressWords c s a n := by
  induction n with
  | zero => rfl
  | succ n ih => rw [compressWords, compressWords, ih (by lia), word_append_left (by lia)]

theorem writeLoop_eq (S : Rounds) (msg total : List UInt8) {needed a q : ℕ} (s : State)
    (hn : needed < 8) (hlen : needed+8*q ≤ msg.length)
    (hword : ∀ j, word total (a+j) = leWord ((msg.drop (needed+8*j)).take 8)) (fuel : ℕ) {j : ℕ}
    (hj : j ≤ q) (hfuel : q < j+fuel) :
    writeLoop S msg (8*q) fuel (needed+8*j) (compressWords S.c s total (a+j)) =
      some (needed+8*q, compressWords S.c s total (a+q)) := by
  induction fuel generalizing j with
  | zero => lia
  | succ fuel ih =>
    rw [writeLoop]
    by_cases hlt : j < q
    · have hload : loadIntLe msg (needed+8*j) 8 = some (word total (a+j)) := by
        rw [loadIntLe, if_pos (by lia), hword]
      rw [if_pos (by lia), hload, Option.bind_eq_bind, Option.bind_some, mix_eq]
      exact ih (j := j+1) (by lia) (by lia)
    · obtain rfl : j = q := by lia
      rw [if_neg (by lia)]

/-! ## The hasher -/

/-- The hasher after the bytes `m` have been written. -/
structure Written (S : Rounds) (k0 k1 : BitVec 64) (m : List UInt8) (h : Hasher) : Prop where
  state : h.state = compressWords S.c (initial k0 k1) m (m.length/8)
  tail : h.tail = leWord (m.drop (8*(m.length/8)))
  ntail : h.ntail = m.length%8
  length : h.length = m.length%2^64

theorem written_new (S : Rounds) (k0 k1 : BitVec 64) : Written S k0 k1 [] (.newWithKeys k0 k1) :=
  ⟨rfl, rfl, rfl, rfl⟩

theorem and_seven (n : ℕ) : n &&& 7 = n%8 := Nat.and_two_pow_sub_one_eq_mod n 3

theorem writeRest_spec {S : Rounds} {k0 k1 : BitVec 64} {m msg : List UInt8} {h : Hasher}
    {needed a : ℕ} (hn : needed < 8) (hle : needed ≤ msg.length) (ha : 8*a = m.length+needed)
    (hs : h.state = compressWords S.c (initial k0 k1) (m ++ msg) a)
    (hl : h.length = (m ++ msg).length%2^64) :
    ∃ h', h.writeRest S msg needed = some h' ∧ Written S k0 k1 (m ++ msg) h' := by
  have hlen : (m ++ msg).length = m.length+msg.length := List.length_append
  generalize hq : (msg.length-needed)/8 = q
  have hdiv : (m ++ msg).length/8 = a+q := by lia
  have hmod : (m ++ msg).length%8 = (msg.length-needed)%8 := by lia
  have hstop : msg.length-needed-(msg.length-needed)%8 = 8*q := by lia
  have hloop := writeLoop_eq S msg (m ++ msg) (initial k0 k1) (a := a) (q := q) hn (by lia)
    (fun j => word_append_right ha) (msg.length+1) (j := 0) (by lia) (by lia)
  simp only [Nat.mul_zero, Nat.add_zero] at hloop
  rw [← hs] at hloop
  have hdrop : (msg.drop (needed+8*q)).take ((msg.length-needed)%8) =
      (m ++ msg).drop (8*((m ++ msg).length/8)) := by
    have hnil : m.drop (8*((m ++ msg).length/8)) = [] := List.drop_eq_nil_of_le (by lia)
    rw [List.drop_append, hnil, List.nil_append,
      List.take_of_length_le (by rw [List.length_drop]; lia)]
    congr 1
    lia
  refine ⟨{ h with
    state := compressWords S.c (initial k0 k1) (m ++ msg) (a+q)
    tail := leWord ((m ++ msg).drop (8*((m ++ msg).length/8)))
    ntail := (msg.length-needed)%8 }, ?_, ?_⟩
  · rw [Hasher.writeRest, sub_eq hle, Option.bind_eq_bind, Option.bind_some]
    simp only [and_seven]
    rw [sub_eq (Nat.mod_le _ _), Option.bind_eq_bind, Option.bind_some, hstop, hloop,
      Option.bind_some, u8to64Le_eq (by lia) (by lia), hdrop]
    rfl
  · exact ⟨by rw [hdiv], rfl, hmod.symm, hl⟩

theorem write_spec {S : Rounds} {k0 k1 : BitVec 64} {m : List UInt8} {h : Hasher}
    (hw : Written S k0 k1 m h) (msg : List UInt8) :
    ∃ h', h.write S msg = some h' ∧ Written S k0 k1 (m ++ msg) h' := by
  have hlen : (m ++ msg).length = m.length+msg.length := List.length_append
  have hl : (h.length+msg.length)%2^64 = (m ++ msg).length%2^64 := by
    rw [hw.length, hlen, Nat.mod_add_mod]
  have hdm := Nat.div_add_mod m.length 8
  have hmod := Nat.mod_lt m.length (show 0 < 8 by norm_num)
  rw [Hasher.write]
  simp only
  rw [hw.ntail]
  by_cases h0 : m.length%8 = 0
  · rw [if_neg (not_not.mpr h0)]
    apply writeRest_spec (a := m.length/8) (by norm_num) (Nat.zero_le _) (by lia)
    · rw [compressWords_append _ _ (by lia), ← hw.state]
    · exact hl
  · generalize hneeded : 8-m.length%8 = needed
    have htail : (m.drop (8*(m.length/8))).length = m.length%8 := by
      rw [List.length_drop]
      lia
    -- the buffered bytes with those that complete them
    have hjoin : h.tail ||| leWord (msg.take (min msg.length needed)) <<< (8*(m.length%8)) =
        leWord ((m ++ msg.take (min msg.length needed)).drop (8*(m.length/8))) := by
      rw [List.drop_append_of_le_length (by lia), leWord_append, htail, hw.tail]
      rw [htail, List.length_take]
      lia
    rw [if_pos h0, sub_eq (by lia), Option.bind_eq_bind, Option.bind_some, hneeded,
      u8to64Le_eq (by lia) (by lia), List.drop_zero, Option.bind_eq_bind, Option.bind_some,
      hjoin]
    by_cases hlt : msg.length < needed
    · refine ⟨_, if_pos hlt, ?_⟩
      have hdiv : (m ++ msg).length/8 = m.length/8 := by lia
      have hall : msg.take (min msg.length needed) = msg := List.take_of_length_le (by lia)
      refine ⟨?_, ?_, ?_, hl⟩
      · rw [hdiv, compressWords_append _ _ (by lia)]
        exact hw.state
      · rw [hdiv]
        exact congrArg leWord (by rw [hall])
      · simp only
        lia
    · rw [if_neg hlt]
      have hword : leWord ((m ++ msg.take (min msg.length needed)).drop (8*(m.length/8))) =
          word (m ++ msg) (m.length/8) := by
        have hfull : (m.drop (8*(m.length/8))).take 8 = m.drop (8*(m.length/8)) :=
          List.take_of_length_le (by lia)
        rw [word, min_eq_right (by lia), List.drop_append_of_le_length (by lia),
          List.drop_append_of_le_length (by lia), List.take_append, htail, hfull, hneeded]
      apply writeRest_spec (a := m.length/8+1) (by lia) (by lia) (by lia)
      · simp only
        rw [mix_eq, hword, compressWords, compressWords_append _ _ (by lia), ← hw.state]
      · exact hl

theorem word_padded (m : List UInt8) : word (padded m) (m.length/8) =
    leWord (m.drop (8*(m.length/8))) ||| BitVec.ofNat 64 (m.length%256) <<< 56 := by
  have hmod := Nat.mod_lt m.length (show 0 < 8 by norm_num)
  have htail : (m.drop (8*(m.length/8))).length = m.length%8 := by
    rw [List.length_drop]
    lia
  have hzeros : ∀ n, Nat.ofDigits 256 ((List.replicate n (0:UInt8)).map UInt8.toNat) = 0 := by
    intro n
    induction n with
    | zero => rfl
    | succ n ih => simp [List.replicate_succ, Nat.ofDigits_cons]
  have hlast : leWord (List.replicate (7-m.length%8) 0 ++ [UInt8.ofNat m.length]) =
      BitVec.ofNat 64 (m.length%256) <<< (8*(7-m.length%8)) := by
    rw [leWord_append (by rw [List.length_replicate, List.length_singleton]; lia),
      List.length_replicate, leWord, hzeros]
    simp [leWord]
  rw [word, padded, List.append_assoc, List.drop_append_of_le_length (by lia),
    List.take_of_length_le (by
      rw [List.length_append, htail, List.length_append, List.length_replicate,
        List.length_singleton]
      lia),
    leWord_append (by
      rw [htail, List.length_append, List.length_replicate, List.length_singleton]
      lia), hlast, htail, ← BitVec.shiftLeft_add]
  congr 2
  lia

theorem finish_eq {S : Rounds} {k0 k1 : BitVec 64} {m : List UInt8} {h : Hasher}
    (hw : Written S k0 k1 m h) : h.finish S = sipHash S.c S.d k0 k1 m := by
  have hlen : BitVec.ofNat 64 h.length &&& 0xff#64 = BitVec.ofNat 64 (m.length%256) := by
    apply BitVec.eq_of_toNat_eq
    simp only [BitVec.toNat_and, BitVec.toNat_ofNat, hw.length]
    rw [show 0xff%2^64 = 2^8-1 by norm_num, Nat.and_two_pow_sub_one_eq_mod]
    lia
  have hb : (BitVec.ofNat 64 h.length &&& 0xff#64) <<< 56 ||| h.tail =
      word (padded m) (m.length/8) := by
    rw [word_padded, hlen, hw.tail, BitVec.or_comm]
  have hstate : mix S h.state (word (padded m) (m.length/8)) =
      compressWords S.c (initial k0 k1) (padded m) (m.length/8+1) := by
    rw [mix_eq, compressWords, padded, List.append_assoc,
      compressWords_append _ _ (Nat.mul_div_le _ _), ← hw.state]
  rw [Hasher.finish, sipHash]
  simp only [hb, hstate, dRounds_eq]

/-! ## Runs -/

inductive Op
  | write (msg : List UInt8)
  | writeStr (s : List UInt8)
  | finish

/-- A run of calls, with the results of `finish`. -/
def run (S : Rounds) : List Op → Hasher → Option (List (BitVec 64))
  | [], _ => some []
  | .write msg :: ops, h => do
    let h ← h.write S msg
    run S ops h
  | .writeStr s :: ops, h => do
    let h ← h.writeStr S s
    run S ops h
  | .finish :: ops, h => do
    let hashes ← run S ops h
    return h.finish S :: hashes

def hashes (hash : List UInt8 → BitVec 64) : List Op → List UInt8 → List (BitVec 64)
  | [], _ => []
  | .write msg :: ops, m => hashes hash ops (m ++ msg)
  | .writeStr s :: ops, m => hashes hash ops (m ++ s ++ [0xff])
  | .finish :: ops, m => hash m :: hashes hash ops m

theorem run_spec {S : Rounds} {k0 k1 : BitVec 64} (ops : List Op) {m : List UInt8} {h : Hasher}
    (hw : Written S k0 k1 m h) : run S ops h = some (hashes (sipHash S.c S.d k0 k1) ops m) := by
  induction ops generalizing m h with
  | nil => rfl
  | cons op ops ih =>
    cases op with
    | write msg =>
      obtain ⟨h', hh', hw'⟩ := write_spec hw msg
      rw [run, hh', Option.bind_eq_bind, Option.bind_some, ih hw']
      rfl
    | writeStr s =>
      obtain ⟨h', hh', hw'⟩ := write_spec hw s
      obtain ⟨h'', hh'', hw''⟩ := write_spec hw' [0xff]
      rw [run, Hasher.writeStr, hh', Option.bind_eq_bind, Option.bind_eq_bind, Option.bind_some,
        hh'', Option.bind_some, ih hw'']
      rfl
    | finish =>
      rw [run, ih hw, finish_eq hw]
      rfl

/-- Whatever slices are written, every `finish` gives the SipHash of the bytes
before it, and no load leaves its slice. -/
theorem sip_streaming (S : Rounds) (k0 k1 : BitVec 64) (ops : List Op) :
    run S ops (.newWithKeys k0 k1) = some (hashes (sipHash S.c S.d k0 k1) ops []) :=
  run_spec ops (written_new S k0 k1)

end RustStd.Sip
