import RustStd.Lib.Threads

/-!
# The bounded channel

Head and tail are stamps: an index into the buffer in the low bits, the mark bit
and a lap. Each slot has a stamp that says whose turn it is. `steps` lists what a
thread can do next, one access to the shared memory a step; laps do not wrap. The
lists of accepted, received and dropped messages only record what happens.
-/

set_option autoImplicit false

namespace RustStd.MpmcArray
open RustStd.Threads

section Stamps
variable (cap : ℕ)

def markBit : ℕ := 2^Nat.clog 2 (cap+1)

def oneLap : ℕ := markBit cap*2

def andNot (a b : ℕ) : ℕ := a ^^^ (a &&& b)

def indexOf (stamp : ℕ) : ℕ := stamp &&& (markBit cap-1)

def lapOf (stamp : ℕ) : ℕ := andNot stamp (oneLap cap-1)

/-- The stamp of the next slot: the same lap with the index incremented, or one
lap forward. -/
def nextStamp (stamp : ℕ) : ℕ :=
  if indexOf cap stamp+1 < cap then stamp+1 else lapOf cap stamp+oneLap cap

def isMarked (tail : ℕ) : Bool := tail &&& markBit cap != 0

end Stamps

structure Slot (M : Type) where
  stamp : ℕ
  msg : Option M

structure Shared (M : Type) where
  head : ℕ
  tail : ℕ
  buffer : ℕ → Slot M
  senders : ℕ
  receivers : ℕ
  -- one message for each update of the tail, and for each update of the head the one that was read
  accepted : List M
  received : List (Option M)
  dropped : List M
  discarded : Bool

def Shared.outstanding {M : Type} (g : Shared M) : ℕ := g.accepted.length-g.received.length

inductive Place (M : Type)
  | idle
  | sendTail (msg : M)
  | sendStamp (msg : M) (tail : ℕ)
  | sendCas (msg : M) (tail : ℕ)
  | sendHead (msg : M) (tail : ℕ)
  /-- The token, and the position of the message among the accepted ones. -/
  | write (msg : M) (slot stamp position : ℕ)
  | writeStamp (slot stamp position : ℕ)
  | sent
  /-- With the reservations that were outstanding when the call gave up. -/
  | full (outstanding : ℕ)
  | sendDisconnected
  | recvHead
  | recvStamp (head : ℕ)
  | recvCas (head : ℕ)
  | recvTail (head : ℕ)
  | read (slot stamp position : ℕ)
  | readStamp (slot stamp position : ℕ) (msg : M)
  | received (msg : M)
  | empty (outstanding : ℕ)
  | recvDisconnected
  | disconnectSenders
  | disconnectReceivers
  /-- In `discard_all_messages`, with the tail that `fetch_or` returned. -/
  | discardAll (tail : ℕ)
  | discardHead (tail : ℕ)
  | discard (tail head : ℕ)
  | discardDrop (tail head : ℕ)
  /-- An assertion has failed, or a message was taken that is not there. -/
  | failed

structure Thread (M : Type) where
  sender : Bool
  receiver : Bool
  place : Place M

def Thread.go {M : Type} (th : Thread M) (place : Place M) : Thread M := { th with place }

section Steps
variable {M : Type}

abbrev Result (M : Type) : Type := Shared M × Thread M

variable (cap : ℕ) (g : Shared M) (th : Thread M)

def stay (place : Place M) : Result M := (g, th.go place)

def setSlot (i : ℕ) (slot : Slot M) : Shared M :=
  { g with buffer := Function.update g.buffer i slot }

def sendStamp (msg : M) (tail : ℕ) : Result M :=
  if isMarked cap tail then stay g th .sendDisconnected
  else
    let index := indexOf cap tail
    if index < cap then
      let stamp := (g.buffer index).stamp
      if tail = stamp then stay g th (.sendCas msg tail)
      else if stamp+oneLap cap = tail+1 then stay g th (.sendHead msg tail)
      else stay g th (.sendTail msg)
    else stay g th .failed

def sendCas (msg : M) (tail : ℕ) : List (Result M) :=
  stay g th (.sendTail msg) :: if g.tail = tail then
    [({ g with tail := nextStamp cap tail, accepted := g.accepted ++ [msg] },
      th.go (.write msg (indexOf cap tail) (tail+1) g.accepted.length))]
  else []

def sendHead (msg : M) (tail : ℕ) : Result M :=
  if g.head+oneLap cap = tail then stay g th (.full g.outstanding) else stay g th (.sendTail msg)

def recvStamp (head : ℕ) : Result M :=
  let index := indexOf cap head
  if index < cap then
    let stamp := (g.buffer index).stamp
    if head+1 = stamp then stay g th (.recvCas head)
    else if stamp = head then stay g th (.recvTail head)
    else stay g th .recvHead
  else stay g th .failed

def recvCas (head : ℕ) : List (Result M) :=
  stay g th .recvHead :: if g.head = head then
    [({ g with head := nextStamp cap head, received := g.received ++ [none] },
      th.go (.read (indexOf cap head) (head+oneLap cap) g.received.length))]
  else []

def recvTail (head : ℕ) : Result M :=
  let tail := g.tail
  if andNot tail (markBit cap) = head then
    if isMarked cap tail then stay g th .recvDisconnected else stay g th (.empty g.outstanding)
  else stay g th .recvHead

def read (slot stamp position : ℕ) : Result M :=
  match (g.buffer slot).msg with
  | some msg =>
    ({ setSlot g slot { g.buffer slot with msg := none } with
      received := g.received.set position (some msg) }, th.go (.readStamp slot stamp position msg))
  | none => stay g th .failed

def discard (tail head : ℕ) : Result M :=
  let index := indexOf cap head
  if index < cap then
    let stamp := (g.buffer index).stamp
    if head+1 = stamp then stay g th (.discardDrop tail head)
    else if tail = head then ({ g with discarded := true }, th.go .idle)
    else stay g th (.discard tail head)
  else stay g th .failed

def discardDrop (tail head : ℕ) : Result M :=
  let index := indexOf cap head
  match (g.buffer index).msg with
  | some msg =>
    ({ setSlot g index { g.buffer index with msg := none } with dropped := g.dropped ++ [msg] },
      th.go (.discard tail (nextStamp cap head)))
  | none => stay g th .failed

def dropReceiver : Result M :=
  ({ g with receivers := g.receivers-1 }, { th with
    receiver := false
    place := if g.receivers = 1 then .disconnectReceivers else .idle })

def dropSender : Result M :=
  ({ g with senders := g.senders-1 }, { th with
    sender := false
    place := if g.senders = 1 then .disconnectSenders else .idle })

/-- What a thread may call. It may get a clone of a receiver or a sender that
another thread holds. -/
inductive Called : Result M → Prop
  | send (msg : M) (h : th.sender = true) : Called (stay g th (.sendTail msg))
  | recv (h : th.receiver = true) : Called (stay g th .recvHead)
  | dropSender (h : th.sender = true) : Called (dropSender g th)
  | dropReceiver (h : th.receiver = true) : Called (dropReceiver g th)
  | cloneSender (h : th.sender = false) (hg : 0 < g.senders) :
      Called ({ g with senders := g.senders+1 }, { th with sender := true, place := .idle })
  | cloneReceiver (h : th.receiver = false) (hg : 0 < g.receivers) :
      Called ({ g with receivers := g.receivers+1 }, { th with receiver := true, place := .idle })

def Outside : Place M → Prop
  | .idle => True
  | .sent => True
  | .full _ => True
  | .sendDisconnected => True
  | .received _ => True
  | .empty _ => True
  | .recvDisconnected => True
  | _ => False

def steps : List (Result M) :=
  match th.place with
  | .sendTail msg => [stay g th (.sendStamp msg g.tail)]
  | .sendStamp msg tail => [sendStamp cap g th msg tail]
  | .sendCas msg tail => sendCas cap g th msg tail
  | .sendHead msg tail => [sendHead cap g th msg tail]
  | .write msg slot stamp position =>
    [(setSlot g slot { g.buffer slot with msg := some msg },
      th.go (.writeStamp slot stamp position))]
  | .writeStamp slot stamp _ =>
    [(setSlot g slot { g.buffer slot with stamp }, th.go .sent)]
  | .recvHead => [stay g th (.recvStamp g.head)]
  | .recvStamp head => [recvStamp cap g th head]
  | .recvCas head => recvCas cap g th head
  | .recvTail head => [recvTail cap g th head]
  | .read slot stamp position => [read g th slot stamp position]
  | .readStamp slot stamp _ msg =>
    [(setSlot g slot { g.buffer slot with stamp }, th.go (.received msg))]
  | .disconnectSenders => [({ g with tail := g.tail ||| markBit cap }, th.go .idle)]
  | .disconnectReceivers =>
    [({ g with tail := g.tail ||| markBit cap }, th.go (.discardAll g.tail))]
  | .discardAll tail =>
    [stay g th (if isMarked cap g.tail then .discardHead tail else .failed)]
  | .discardHead tail => [stay g th (.discard (andNot tail (markBit cap)) g.head)]
  | .discard tail head => [discard cap g th tail head]
  | .discardDrop tail head => [discardDrop cap g th tail head]
  | _ => []

end Steps

/-- Nobody sleeps: the calls are the ones that do not block. -/
def program (M : Type) (cap : ℕ) : Program (Shared M) (Thread M) Empty where
  Step g th wake g' th' := wake = .nobody ∧
    ((Outside th.place ∧ Called g th (g', th')) ∨ (g', th') ∈ steps cap g th)
  sleepsOn _ := none
  woken th := th

/-- `with_capacity`, for threads some of which hold a sender or a receiver. -/
def withCapacity {ι : Type} [Fintype ι] (M : Type) (sender receiver : ι → Bool) :
    Config ι (Shared M) (Thread M) where
  shared := {
    head := 0
    tail := 0
    buffer := fun i => ⟨i, none⟩
    senders := ∑ t, (sender t).toNat
    receivers := ∑ t, (receiver t).toNat
    accepted := []
    received := []
    dropped := []
    discarded := false }
  pc t := ⟨sender t, receiver t, .idle⟩

end RustStd.MpmcArray

/-! ## The stamps of the bounded channel

The `k`-th reservation uses slot `k % cap` in lap `k / cap`. What the code does
with bits to a stamp is arithmetic on `k`.
-/

namespace RustStd.MpmcArray

def stampOf (cap k : ℕ) : ℕ := k/cap*oneLap cap+k%cap

theorem andNot_low (s n : ℕ) : andNot s (2^n-1) = s/2^n*2^n := by
  unfold andNot
  rw [Nat.and_two_pow_sub_one_eq_mod, Nat.mul_comm]
  apply Nat.eq_of_testBit_eq
  intro i
  rw [Nat.testBit_xor, Nat.testBit_mod_two_pow, Nat.testBit_two_pow_mul, Nat.testBit_div_two_pow]
  by_cases h : i < n
  · have hn : ¬ i ≥ n := Nat.not_le.mpr h
    simp [h, hn]
  · have hn : n ≤ i := Nat.not_lt.mp h
    simp [h, hn, Nat.sub_add_cancel hn]

theorem or_two_pow {s n : ℕ} (h : s.testBit n = false) : s ||| 2^n = s+2^n := by
  have hbit : s/2^n%2 = 0 := by
    rw [Nat.testBit_eq_decide_div_mod_eq, decide_eq_false_iff_not] at h
    omega
  have hlo : s%2^(n+1) = s%2^n := by
    rw [Nat.pow_succ, Nat.mod_mul, hbit, Nat.mul_zero, Nat.add_zero]
  have hs : s = 2^(n+1)*(s/2^(n+1)) ||| s%2^n := by
    rw [← hlo, ← Nat.two_pow_add_eq_or_of_lt (Nat.mod_lt _ (Nat.two_pow_pos _)), Nat.div_add_mod]
  have hmod : s%2^n < 2^n := Nat.mod_lt _ (Nat.two_pow_pos n)
  have hor : s%2^n ||| 2^n = 2^n*1+s%2^n := by
    rw [Nat.two_pow_add_eq_or_of_lt hmod, Nat.mul_one, Nat.or_comm]
  have hlt : 2^n*1+s%2^n < 2^(n+1) := by
    rw [Nat.pow_succ]
    omega
  calc s ||| 2^n = 2^(n+1)*(s/2^(n+1)) ||| (s%2^n ||| 2^n) := by rw [← Nat.or_assoc, ← hs]
    _ = 2^(n+1)*(s/2^(n+1))+(2^n*1+s%2^n) := by rw [hor, Nat.two_pow_add_eq_or_of_lt hlt]
    _ = s+2^n := by
      have := Nat.div_add_mod s (2^(n+1))
      omega

theorem andNot_add_two_pow {s n : ℕ} (h : s.testBit n = false) : andNot (s+2^n) (2^n) = s := by
  rw [← or_two_pow h]
  unfold andNot
  apply Nat.eq_of_testBit_eq
  intro i
  rw [Nat.testBit_xor, Nat.testBit_and, Nat.testBit_or, Nat.testBit_two_pow]
  by_cases hi : n = i
  · subst hi
    simp [h]
  · simp [hi]

variable {cap k j : ℕ}

theorem oneLap_eq (cap : ℕ) : oneLap cap = 2^(Nat.clog 2 (cap+1)+1) := by
  rw [oneLap, markBit, Nat.pow_succ]

theorem cap_lt_markBit (cap : ℕ) : cap < markBit cap :=
  Nat.le_pow_clog Nat.one_lt_two (cap+1)

theorem stampOf_add_cap (hc : 0 < cap) : stampOf cap (k+cap) = stampOf cap k+oneLap cap := by
  unfold stampOf
  rw [Nat.add_div_right k hc, Nat.add_mod_right, Nat.succ_mul]
  omega

theorem stampOf_low (hc : 0 < cap) :
    stampOf cap k%markBit cap = k%cap ∧ (stampOf cap k+1)%markBit cap = k%cap+1 := by
  have hlt := cap_lt_markBit cap
  have hmod := Nat.mod_lt k hc
  have hstamp : stampOf cap k = k%cap+markBit cap*(k/cap*2) := by
    unfold stampOf oneLap
    ring
  rw [hstamp, Nat.add_right_comm, Nat.add_mul_mod_self_left, Nat.add_mul_mod_self_left]
  exact ⟨Nat.mod_eq_of_lt (by omega), Nat.mod_eq_of_lt (by omega)⟩

theorem indexOf_stampOf (hc : 0 < cap) : indexOf cap (stampOf cap k) = k%cap := by
  have hlow := (stampOf_low (k := k) hc).1
  unfold indexOf
  unfold markBit at hlow ⊢
  rw [Nat.and_two_pow_sub_one_eq_mod]
  exact hlow

theorem stampOf_div (hc : 0 < cap) : stampOf cap k/oneLap cap = k/cap := by
  have hlt := cap_lt_markBit cap
  have hmod := Nat.mod_lt k hc
  have hlap : k%cap < oneLap cap := by
    unfold oneLap
    omega
  unfold stampOf
  rw [Nat.add_comm, Nat.add_mul_div_right _ _ (Nat.zero_lt_of_lt hlap), Nat.div_eq_of_lt hlap,
    Nat.zero_add]

theorem stampOf_injective (hc : 0 < cap) (h : stampOf cap k = stampOf cap j) : k = j := by
  have hdiv : k/cap = j/cap := by rw [← stampOf_div hc, h, stampOf_div hc]
  have hmod : k%cap = j%cap := by rw [← (stampOf_low hc).1, h, (stampOf_low hc).1]
  rw [← Nat.div_add_mod k cap, hdiv, hmod, Nat.div_add_mod]

theorem stampOf_ne_succ (hc : 0 < cap) (hi : k%cap = j%cap) : stampOf cap k ≠ stampOf cap j+1 := by
  intro h
  have hlow := (stampOf_low (k := k) hc).1
  rw [h, (stampOf_low hc).2] at hlow
  omega

theorem nextStamp_stampOf (hc : 0 < cap) :
    nextStamp cap (stampOf cap k) = stampOf cap (k+1) := by
  have hlap : lapOf cap (stampOf cap k) = k/cap*oneLap cap := by
    unfold lapOf
    rw [oneLap_eq, andNot_low, ← oneLap_eq, stampOf_div hc]
  have hdm := Nat.div_add_mod k cap
  have hmod := Nat.mod_lt k hc
  unfold nextStamp
  rw [indexOf_stampOf hc, hlap]
  split_ifs with h
  · have hk : k+1 = cap*(k/cap)+(k%cap+1) := by omega
    unfold stampOf
    rw [hk, Nat.mul_add_div hc, Nat.mul_add_mod, Nat.div_eq_of_lt h, Nat.mod_eq_of_lt h,
      Nat.add_assoc]
    rfl
  · have hk : k+1 = cap*(k/cap+1) := by
      rw [Nat.mul_add_one]
      omega
    unfold stampOf
    rw [hk, Nat.mul_div_cancel_left _ hc, Nat.mul_mod_right, Nat.succ_mul, Nat.add_zero]

theorem stampOf_testBit (hc : 0 < cap) :
    (stampOf cap k).testBit (Nat.clog 2 (cap+1)) = false := by
  have hlt := cap_lt_markBit cap
  have hmod := Nat.mod_lt k hc
  have hstamp : stampOf cap k = k%cap+markBit cap*(k/cap*2) := by
    unfold stampOf oneLap
    ring
  have heven : stampOf cap k/markBit cap = k/cap*2 := by
    rw [hstamp, Nat.add_mul_div_left _ _ (by omega), Nat.div_eq_of_lt (by omega), Nat.zero_add]
  unfold markBit at heven
  rw [Nat.testBit_eq_decide_div_mod_eq, heven, Nat.mul_mod_left]
  rfl

theorem isMarked_stampOf (hc : 0 < cap) : isMarked cap (stampOf cap k) = false := by
  unfold isMarked markBit
  rw [Nat.and_two_pow, stampOf_testBit hc, Bool.toNat_false, Nat.zero_mul]
  rfl

theorem stampOf_or_mark (hc : 0 < cap) :
    stampOf cap k ||| markBit cap = stampOf cap k+markBit cap :=
  or_two_pow (stampOf_testBit hc)

theorem marked_or_mark (hc : 0 < cap) :
    (stampOf cap k+markBit cap) ||| markBit cap = stampOf cap k+markBit cap := by
  rw [← stampOf_or_mark hc, Nat.or_assoc, Nat.or_self]

theorem isMarked_add_mark (hc : 0 < cap) : isMarked cap (stampOf cap k+markBit cap) = true := by
  have hset : (stampOf cap k+markBit cap).testBit (Nat.clog 2 (cap+1)) = true := by
    rw [← stampOf_or_mark hc, Nat.testBit_or, markBit, Nat.testBit_two_pow_self, Bool.or_true]
  have hpos : 0 < 2^Nat.clog 2 (cap+1) := Nat.two_pow_pos _
  unfold isMarked
  rw [show markBit cap = 2^Nat.clog 2 (cap+1) from rfl] at hset ⊢
  rw [Nat.and_two_pow, hset, Bool.toNat_true, Nat.one_mul, bne_iff_ne]
  exact hpos.ne'

theorem andNot_mark (hc : 0 < cap) : andNot (stampOf cap k) (markBit cap) = stampOf cap k := by
  unfold andNot markBit
  rw [Nat.and_two_pow, stampOf_testBit hc, Bool.toNat_false, Nat.zero_mul, Nat.xor_zero]

theorem andNot_add_mark (hc : 0 < cap) :
    andNot (stampOf cap k+markBit cap) (markBit cap) = stampOf cap k :=
  andNot_add_two_pow (stampOf_testBit hc)

end RustStd.MpmcArray
