import RustStd.Sync.MpmcArray

/-!
# What holds of the bounded channel in every interleaving

The stamp of a slot names the reservation whose turn it is, to be written or to be
read. Each thread knows that for the slot of its token, and of what it has loaded
only that it was right when it was loaded.
-/

set_option autoImplicit false

namespace RustStd.MpmcArray
open RustStd.Threads

variable {M : Type}

def senderAt : Place M → Option ℕ
  | .write _ _ _ k => some k
  | .writeStamp _ _ k => some k
  | _ => none

def readerAt : Place M → Option ℕ
  | .read _ _ k => some k
  | .readStamp _ _ k _ => some k
  | _ => none

def Receives : Place M → Prop
  | .recvHead => True
  | .recvStamp _ => True
  | .recvCas _ => True
  | .recvTail _ => True
  | .read _ _ _ => True
  | .readStamp _ _ _ _ => True
  | _ => False

def Discards : Place M → Prop
  | .disconnectReceivers => True
  | .discardAll _ => True
  | .discardHead _ => True
  | .discard _ _ => True
  | .discardDrop _ _ => True
  | _ => False

section Invariant
variable (cap : ℕ) (g : Shared M)

/-- The slot waits for the `k`-th message, or its sender has it. -/
structure Ready (k : ℕ) : Prop where
  stamp : (g.buffer (k%cap)).stamp = stampOf cap k
  le : g.received.length ≤ k
  lt : k < g.received.length+cap
  vacant : g.accepted.length ≤ k → (g.buffer (k%cap)).msg = none

/-- The slot holds the `k`-th message, unless its receiver has it or it has been
dropped. -/
structure Written (k : ℕ) : Prop where
  stamp : (g.buffer (k%cap)).stamp = stampOf cap k+1
  lt : k < g.accepted.length
  le : g.accepted.length ≤ k+cap
  msg : g.received.length+g.dropped.length ≤ k → (g.buffer (k%cap)).msg = g.accepted[k]?

structure Buffered : Prop where
  head : g.head = stampOf cap g.received.length
  tail : g.tail = stampOf cap g.accepted.length ∨
    g.tail = stampOf cap g.accepted.length+markBit cap
  le : g.received.length ≤ g.accepted.length
  bounded : g.accepted.length ≤ g.received.length+cap
  slots : ∀ i < cap, ∃ k, k%cap = i ∧ (Ready cap g k ∨ Written cap g k)

/-- The slot has no stamp but that of the `k`-th reservation, to be written. -/
def Local : Place M → Prop
  | .sendStamp _ tail => ∃ k ≤ g.accepted.length,
    tail = stampOf cap k ∨ tail = stampOf cap k+markBit cap
  | .sendCas _ tail => ∃ k ≤ g.accepted.length, tail = stampOf cap k ∧
    (k = g.accepted.length → (g.buffer (k%cap)).stamp = stampOf cap k)
  | .sendHead _ tail => ∃ k ≤ g.accepted.length, tail = stampOf cap k
  | .write msg slot stamp k => slot = k%cap ∧ stamp = stampOf cap k+1 ∧
    g.accepted[k]? = some msg ∧ (g.buffer (k%cap)).stamp = stampOf cap k ∧
    (g.buffer (k%cap)).msg = none
  | .writeStamp slot stamp k => slot = k%cap ∧ stamp = stampOf cap k+1 ∧
    (g.buffer (k%cap)).stamp = stampOf cap k ∧
    ∃ msg, (g.buffer (k%cap)).msg = some msg ∧ g.accepted[k]? = some msg
  | .full n => n = cap
  | .recvStamp head => ∃ k ≤ g.received.length, head = stampOf cap k
  | .recvCas head => ∃ k ≤ g.received.length, head = stampOf cap k ∧
    (k = g.received.length → (g.buffer (k%cap)).stamp = stampOf cap k+1)
  | .recvTail head => ∃ k ≤ g.received.length, head = stampOf cap k
  | .read slot stamp k => slot = k%cap ∧ stamp = stampOf cap (k+cap) ∧
    g.received[k]? = some none ∧ (g.buffer (k%cap)).stamp = stampOf cap k+1 ∧
    ∃ msg, (g.buffer (k%cap)).msg = some msg ∧ g.accepted[k]? = some msg
  | .readStamp slot stamp k msg => slot = k%cap ∧ stamp = stampOf cap (k+cap) ∧
    g.received[k]? = some (some msg) ∧ (g.buffer (k%cap)).stamp = stampOf cap k+1 ∧
    (g.buffer (k%cap)).msg = none
  | .empty n => n = 0
  | .disconnectReceivers => g.dropped = [] ∧ g.discarded = false
  | .discardAll tail => g.dropped = [] ∧ g.tail = stampOf cap g.accepted.length+markBit cap ∧
    andNot tail (markBit cap) = stampOf cap g.accepted.length
  | .discardHead tail => g.dropped = [] ∧ g.tail = stampOf cap g.accepted.length+markBit cap ∧
    andNot tail (markBit cap) = stampOf cap g.accepted.length
  | .discard tail head => g.tail = stampOf cap g.accepted.length+markBit cap ∧
    tail = stampOf cap g.accepted.length ∧
    head = stampOf cap (g.received.length+g.dropped.length) ∧
    g.received.length+g.dropped.length ≤ g.accepted.length
  | .discardDrop tail head => g.tail = stampOf cap g.accepted.length+markBit cap ∧
    tail = stampOf cap g.accepted.length ∧
    head = stampOf cap (g.received.length+g.dropped.length) ∧
    (g.buffer ((g.received.length+g.dropped.length)%cap)).stamp =
      stampOf cap (g.received.length+g.dropped.length)+1
  | .failed => False
  | _ => True

variable {ι : Type} [Fintype ι]

structure Inv (pc : ι → Thread M) : Prop where
  buffered : Buffered cap g
  locals : ∀ t, Local cap g (pc t).place
  senders : ∀ t u k, senderAt (pc t).place = some k → senderAt (pc u).place = some k → t = u
  readers : ∀ t u k, readerAt (pc t).place = some k → readerAt (pc u).place = some k → t = u
  /-- A reservation whose message is not read yet has its receiver. -/
  pending : ∀ k, g.received[k]? = some none → ∃ t slot stamp, (pc t).place = .read slot stamp k
  matched : ∀ (k : ℕ) (msg : M), g.received[k]? = some (some msg) → g.accepted[k]? = some msg
  receiving : ∀ t, Receives (pc t).place → (pc t).receiver = true
  receivers : ∑ t, (pc t).receiver.toNat = g.receivers
  discarding : ∀ t, Discards (pc t).place → g.receivers = 0 ∧ ∀ u, Discards (pc u).place → u = t
  dropped : g.dropped ≠ [] ∨ g.discarded = true → g.receivers = 0
  droppedFrom : g.dropped = (g.accepted.drop g.received.length).take g.dropped.length
  finished : g.discarded = true → g.tail = stampOf cap g.accepted.length+markBit cap ∧
    g.received.length+g.dropped.length = g.accepted.length ∧ ∀ u, ¬ Discards (pc u).place

end Invariant

section Facts
variable {cap : ℕ} {g g' : Shared M}

theorem Buffered.ready (h : Buffered cap g) (hc : 0 < cap) {k : ℕ}
    (hs : (g.buffer (k%cap)).stamp = stampOf cap k) : Ready cap g k := by
  obtain ⟨j, hj, hr | hw⟩ := h.slots (k%cap) (Nat.mod_lt k hc)
  · have hstamp := hr.stamp
    rw [hj, hs] at hstamp
    exact stampOf_injective hc hstamp ▸ hr
  · have hstamp := hw.stamp
    rw [hj, hs] at hstamp
    exact absurd hstamp (stampOf_ne_succ hc hj.symm)

theorem Buffered.written (h : Buffered cap g) (hc : 0 < cap) {k : ℕ}
    (hs : (g.buffer (k%cap)).stamp = stampOf cap k+1) : Written cap g k := by
  obtain ⟨j, hj, hr | hw⟩ := h.slots (k%cap) (Nat.mod_lt k hc)
  · have hstamp := hr.stamp
    rw [hj, hs] at hstamp
    exact absurd hstamp.symm (stampOf_ne_succ hc hj)
  · have hstamp := hw.stamp
    rw [hj, hs] at hstamp
    exact stampOf_injective hc (Nat.succ_injective hstamp) ▸ hw

/-- What other threads do to the memory keeps what a thread knows, if its slot is
left alone and a stamp that was right for the next reservation is still right. -/
theorem Local.frame {p : Place M} (h : Local cap g p)
    (hT : g.accepted.length ≤ g'.accepted.length) (hH : g.received.length ≤ g'.received.length)
    (hacc : ∀ (k : ℕ) (msg : M), g.accepted[k]? = some msg → g'.accepted[k]? = some msg)
    (hsend : ∀ k, senderAt p = some k → g'.buffer (k%cap) = g.buffer (k%cap))
    (hread : ∀ k, readerAt p = some k →
      g'.buffer (k%cap) = g.buffer (k%cap) ∧ g'.received[k]? = g.received[k]?)
    (hready : ∀ k ≤ g.accepted.length, k = g'.accepted.length →
      (g.buffer (k%cap)).stamp = stampOf cap k → (g'.buffer (k%cap)).stamp = stampOf cap k)
    (hwritten : ∀ k ≤ g.received.length, k = g'.received.length →
      (g.buffer (k%cap)).stamp = stampOf cap k+1 → (g'.buffer (k%cap)).stamp = stampOf cap k+1)
    (hdiscard : Discards p → g'.dropped = g.dropped ∧ g'.discarded = g.discarded ∧
      (g.tail = stampOf cap g.accepted.length+markBit cap →
        g'.tail = g.tail ∧ g'.accepted = g.accepted ∧ g'.received = g.received ∧
        ∀ k, (g.buffer (k%cap)).stamp = stampOf cap k+1 →
          (g'.buffer (k%cap)).stamp = stampOf cap k+1)) :
    Local cap g' p := by
  cases p with
  | sendStamp msg tail =>
    obtain ⟨k, hk, htail⟩ := h
    exact ⟨k, hk.trans hT, htail⟩
  | sendCas msg tail =>
    obtain ⟨k, hk, htail, hs⟩ := h
    refine ⟨k, hk.trans hT, htail, fun hk' => hready k hk hk' (hs ?_)⟩
    exact Nat.le_antisymm hk (hk' ▸ hT)
  | sendHead msg tail =>
    obtain ⟨k, hk, htail⟩ := h
    exact ⟨k, hk.trans hT, htail⟩
  | write msg slot stamp k =>
    obtain ⟨hslot, hstamp, hmsg, hb⟩ := h
    refine ⟨hslot, hstamp, hacc k msg hmsg, ?_⟩
    rwa [hsend k rfl]
  | writeStamp slot stamp k =>
    obtain ⟨hslot, hstamp, hb, msg, hmsg, ha⟩ := h
    refine ⟨hslot, hstamp, ?_⟩
    rw [hsend k rfl]
    exact ⟨hb, msg, hmsg, hacc k msg ha⟩
  | recvStamp head =>
    obtain ⟨k, hk, hhead⟩ := h
    exact ⟨k, hk.trans hH, hhead⟩
  | recvCas head =>
    obtain ⟨k, hk, hhead, hs⟩ := h
    refine ⟨k, hk.trans hH, hhead, fun hk' => hwritten k hk hk' (hs ?_)⟩
    exact Nat.le_antisymm hk (hk' ▸ hH)
  | recvTail head =>
    obtain ⟨k, hk, hhead⟩ := h
    exact ⟨k, hk.trans hH, hhead⟩
  | read slot stamp k =>
    obtain ⟨hslot, hstamp, hnone, hb, msg, hmsg, ha⟩ := h
    obtain ⟨hbuf, hrec⟩ := hread k rfl
    refine ⟨hslot, hstamp, hrec.trans hnone, ?_⟩
    rw [hbuf]
    exact ⟨hb, msg, hmsg, hacc k msg ha⟩
  | readStamp slot stamp k msg =>
    obtain ⟨hslot, hstamp, hsome, hb⟩ := h
    obtain ⟨hbuf, hrec⟩ := hread k rfl
    refine ⟨hslot, hstamp, hrec.trans hsome, ?_⟩
    rwa [hbuf]
  | disconnectReceivers =>
    obtain ⟨hd, hf, -⟩ := hdiscard trivial
    exact ⟨hd.trans h.1, hf.trans h.2⟩
  | discardAll tail =>
    obtain ⟨hd, -, hm⟩ := hdiscard trivial
    obtain ⟨ht, ha, -⟩ := hm h.2.1
    refine ⟨hd.trans h.1, ?_⟩
    rw [ha, ht]
    exact h.2
  | discardHead tail =>
    obtain ⟨hd, -, hm⟩ := hdiscard trivial
    obtain ⟨ht, ha, -⟩ := hm h.2.1
    refine ⟨hd.trans h.1, ?_⟩
    rw [ha, ht]
    exact h.2
  | discard tail head =>
    obtain ⟨hd, -, hm⟩ := hdiscard trivial
    obtain ⟨ht, ha, hr, -⟩ := hm h.1
    change _ ∧ _
    rw [ha, hr, hd, ht]
    exact h
  | discardDrop tail head =>
    obtain ⟨hd, -, hm⟩ := hdiscard trivial
    obtain ⟨ht, ha, hr, hb⟩ := hm h.1
    change _ ∧ _
    rw [ha, hr, hd, ht]
    obtain ⟨htail, ht', hhead, hs⟩ := h
    exact ⟨htail, ht', hhead, hb _ hs⟩
  | _ => exact h

theorem Local.sender {p : Place M} (h : Local cap g p) {k : ℕ} (hp : senderAt p = some k) :
    (g.buffer (k%cap)).stamp = stampOf cap k ∧ k < g.accepted.length := by
  have hlt : ∀ {msg}, g.accepted[k]? = some msg → k < g.accepted.length :=
    fun hm => (List.getElem?_eq_some_iff.mp hm).1
  cases p with
  | write msg slot stamp j =>
    obtain rfl : j = k := Option.some_injective _ hp
    exact ⟨h.2.2.2.1, hlt h.2.2.1⟩
  | writeStamp slot stamp j =>
    obtain rfl : j = k := Option.some_injective _ hp
    obtain ⟨-, -, hs, msg, -, hm⟩ := h
    exact ⟨hs, hlt hm⟩
  | _ => cases hp

theorem Local.reader {p : Place M} (h : Local cap g p) {k : ℕ} (hp : readerAt p = some k) :
    (g.buffer (k%cap)).stamp = stampOf cap k+1 ∧ k < g.received.length := by
  have hlt : ∀ {r}, g.received[k]? = some r → k < g.received.length :=
    fun hr => (List.getElem?_eq_some_iff.mp hr).1
  cases p with
  | read slot stamp j =>
    obtain rfl : j = k := Option.some_injective _ hp
    exact ⟨h.2.2.2.1, hlt h.2.2.1⟩
  | readStamp slot stamp j msg =>
    obtain rfl : j = k := Option.some_injective _ hp
    exact ⟨h.2.2.2.1, hlt h.2.2.1⟩
  | _ => cases hp

theorem receives_of_readerAt {p : Place M} {k : ℕ} (h : readerAt p = some k) : Receives p := by
  cases p <;> cases h <;> trivial

variable {ι : Type} [Fintype ι] {pc : ι → Thread M} {t u : ι}

theorem Inv.senders_ne (h : Inv cap g pc) (hc : 0 < cap) {j k : ℕ}
    (ht : senderAt (pc t).place = some j) (hu : senderAt (pc u).place = some k) (hne : u ≠ t) :
    k%cap ≠ j%cap := by
  intro he
  have hj := ((h.locals t).sender ht).1
  have hk := ((h.locals u).sender hu).1
  rw [he, hj] at hk
  obtain rfl := stampOf_injective hc hk
  exact hne (h.senders u t j hu ht)

theorem Inv.readers_ne (h : Inv cap g pc) (hc : 0 < cap) {j k : ℕ}
    (ht : readerAt (pc t).place = some j) (hu : readerAt (pc u).place = some k) (hne : u ≠ t) :
    k%cap ≠ j%cap := by
  intro he
  have hj := ((h.locals t).reader ht).1
  have hk := ((h.locals u).reader hu).1
  rw [he, hj] at hk
  obtain rfl := stampOf_injective hc (Nat.succ_injective hk)
  exact hne (h.readers u t j hu ht)

theorem Inv.sender_reader_ne (h : Inv cap g pc) (hc : 0 < cap) {j k : ℕ}
    (ht : senderAt (pc t).place = some j) (hu : readerAt (pc u).place = some k) :
    k%cap ≠ j%cap := by
  intro he
  have hj := ((h.locals t).sender ht).1
  have hk := ((h.locals u).reader hu).1
  rw [he, hj] at hk
  exact stampOf_ne_succ hc he.symm hk

theorem Inv.no_receiver (h : Inv cap g pc) (hr : g.receivers = 0) (u : ι) :
    (pc u).receiver = false := by
  have hsum := h.receivers
  rw [hr, Finset.sum_eq_zero_iff] at hsum
  have hu := hsum u (Finset.mem_univ u)
  rwa [Bool.toNat_eq_zero] at hu

theorem Inv.not_receives (h : Inv cap g pc) (hr : g.receivers = 0) (u : ι) :
    ¬ Receives (pc u).place := by
  intro hu
  have := h.receiving u hu
  rw [h.no_receiver hr u] at this
  cases this

variable [DecidableEq ι]

theorem Inv.step (h : Inv cap g pc) {th : Thread M} (hb : Buffered cap g')
    (hl : Local cap g' th.place) (hothers : ∀ u, u ≠ t → Local cap g' (pc u).place)
    (hsender : ∀ k, senderAt th.place = some k →
      senderAt (pc t).place = some k ∨ g.accepted.length ≤ k)
    (hreader : ∀ k, readerAt th.place = some k →
      readerAt (pc t).place = some k ∨ g.received.length ≤ k)
    (hpending : ∀ k, g'.received[k]? = some none →
      (g.received[k]? = some none ∧ ∀ slot stamp, (pc t).place ≠ .read slot stamp k) ∨
        ∃ slot stamp, th.place = .read slot stamp k)
    (hmatched : ∀ (k : ℕ) (msg : M), g'.received[k]? = some (some msg) → g'.accepted[k]? = some msg)
    (hrecv : th.receiver = (pc t).receiver) (hrecvs : g'.receivers = g.receivers)
    (hreceives : Receives th.place → Receives (pc t).place ∨ (pc t).receiver = true)
    (hdiscards : Discards th.place → Discards (pc t).place)
    (hdropped : g'.dropped ≠ [] ∨ g'.discarded = true →
      (g.dropped ≠ [] ∨ g.discarded = true) ∨ Discards (pc t).place)
    (hfrom : g'.dropped = (g'.accepted.drop g'.received.length).take g'.dropped.length)
    (hfinished : g'.discarded = true → g'.tail = stampOf cap g'.accepted.length+markBit cap ∧
      g'.received.length+g'.dropped.length = g'.accepted.length ∧
      (g.discarded = true ∨ Discards (pc t).place ∧ ¬ Discards th.place)) :
    Inv cap g' (Function.update pc t th) := by
  have hold : ∀ u, Discards (Function.update pc t th u).place → Discards (pc u).place := by
    intro u hu
    rcases update_cases pc t th u with ⟨rfl, he⟩ | ⟨-, he⟩ <;> rw [he] at hu
    · exact hdiscards hu
    · exact hu
  constructor
  case buffered => exact hb
  case locals => exact forall_update (Q := fun th : Thread M => Local cap g' th.place) hl hothers
  case senders =>
    apply unique_update (fun th : Thread M => senderAt th.place) h.senders
    intro k hk
    refine (hsender k hk).imp_right fun hle u _ hu => ?_
    exact absurd ((h.locals u).sender hu).2 (Nat.not_lt.mpr hle)
  case readers =>
    apply unique_update (fun th : Thread M => readerAt th.place) h.readers
    intro k hk
    refine (hreader k hk).imp_right fun hle u _ hu => ?_
    exact absurd ((h.locals u).reader hu).2 (Nat.not_lt.mpr hle)
  case pending =>
    intro k hk
    rcases hpending k hk with ⟨hold, hne⟩ | ⟨slot, stamp, hp⟩
    · obtain ⟨u, slot, stamp, hu⟩ := h.pending k hold
      refine ⟨u, slot, stamp, ?_⟩
      rw [Function.update_of_ne]
      · exact hu
      · rintro rfl
        exact hne slot stamp hu
    · refine ⟨t, slot, stamp, ?_⟩
      rwa [Function.update_self]
  case matched => exact hmatched
  case receiving =>
    apply forall_update (Q := fun th : Thread M => Receives th.place → th.receiver = true)
    · intro hr
      rw [hrecv]
      exact (hreceives hr).elim (h.receiving t) id
    · exact fun u _ => h.receiving u
  case receivers =>
    have hsum := sum_update (fun th : Thread M => th.receiver.toNat) pc t th
    rw [hrecv, Nat.add_right_cancel_iff] at hsum
    rw [hsum, hrecvs]
    exact h.receivers
  case discarding =>
    intro u hu
    obtain ⟨hr, huniq⟩ := h.discarding u (hold u hu)
    exact ⟨hrecvs.trans hr, fun v hv => huniq v (hold v hv)⟩
  case dropped =>
    intro hd
    rw [hrecvs]
    rcases hdropped hd with hd | hd
    · exact h.dropped hd
    · exact (h.discarding t hd).1
  case droppedFrom => exact hfrom
  case finished =>
    intro hf
    obtain ⟨htail, hlen, hnone⟩ := hfinished hf
    refine ⟨htail, hlen, fun u hu => ?_⟩
    rcases hnone with hg | ⟨ht, hth⟩
    · exact (h.finished hg).2.2 u (hold u hu)
    · obtain rfl := (h.discarding t ht).2 u (hold u hu)
      rw [Function.update_self] at hu
      exact hth hu

theorem Inv.keep (h : Inv cap g pc) {p : Place M} (hb : Buffered cap g') (hl : Local cap g' p)
    (hothers : ∀ u, u ≠ t → Local cap g' (pc u).place)
    (hsender : ∀ k, senderAt p = some k → senderAt (pc t).place = some k) (hreader : readerAt p = none)
    (hread : ∀ slot stamp k, (pc t).place ≠ .read slot stamp k)
    (hreceives : Receives p → Receives (pc t).place ∨ (pc t).receiver = true)
    (hdiscards : Discards p → Discards (pc t).place) (htail : g'.tail = g.tail)
    (hrecvs : g'.receivers = g.receivers) (ha : g'.accepted = g.accepted)
    (hr : g'.received = g.received) (hd : g'.dropped = g.dropped)
    (hf : g'.discarded = g.discarded) : Inv cap g' (Function.update pc t ((pc t).go p)) := by
  apply h.step hb hl hothers
  case hsender => exact fun k hk => .inl (hsender k hk)
  case hreader =>
    intro k hk
    cases hreader.symm.trans hk
  case hpending =>
    rw [hr]
    exact fun k hk => .inl ⟨hk, fun slot stamp => hread slot stamp k⟩
  case hmatched =>
    rw [ha, hr]
    exact h.matched
  case hrecv => rfl
  case hrecvs => exact hrecvs
  case hreceives => exact hreceives
  case hdiscards => exact hdiscards
  case hdropped =>
    rw [hd, hf]
    exact .inl
  case hfrom =>
    rw [hd, ha, hr]
    exact h.droppedFrom
  case hfinished =>
    rw [hf, htail, ha, hr, hd]
    intro hg
    obtain ⟨ht, hlen, -⟩ := h.finished hg
    exact ⟨ht, hlen, .inl hg⟩

theorem Inv.quiet (h : Inv cap g pc) {p : Place M} (hl : Local cap g p) (hs : senderAt p = none)
    (hr : readerAt p = none) (hread : ∀ slot stamp k, (pc t).place ≠ .read slot stamp k)
    (hreceives : Receives p → Receives (pc t).place ∨ (pc t).receiver = true)
    (hdiscards : Discards p → Discards (pc t).place) :
    Inv cap g (Function.update pc t ((pc t).go p)) :=
  h.keep h.buffered hl (fun u _ => h.locals u) (fun _ hk => nomatch hs.symm.trans hk) hr hread
    hreceives hdiscards rfl rfl rfl rfl rfl rfl

theorem Buffered.setSlot (h : Buffered cap g) {j : ℕ} {slot : Slot M} (hhead : g'.head = g.head)
    (htail : g'.tail = g.tail) (ha : g'.accepted = g.accepted)
    (hr : g'.received.length = g.received.length) (hd : g.dropped.length ≤ g'.dropped.length)
    (hbuf : g'.buffer = Function.update g.buffer (j%cap) slot)
    (hnew : ∃ k, k%cap = j%cap ∧ (Ready cap g' k ∨ Written cap g' k)) : Buffered cap g' := by
  constructor
  case head => rw [hhead, hr, h.head]
  case tail => rw [htail, ha]; exact h.tail
  case le => rw [hr, ha]; exact h.le
  case bounded => rw [hr, ha]; exact h.bounded
  case slots =>
    intro i hi
    by_cases hij : i = j%cap
    · rw [hij]
      exact hnew
    · obtain ⟨k, hk, hslot⟩ := h.slots i hi
      have hsame : g'.buffer (k%cap) = g.buffer (k%cap) := by
        rw [hbuf, Function.update_of_ne (hk.symm ▸ hij)]
      refine ⟨k, hk, ?_⟩
      rcases hslot with hready | hwritten
      · refine .inl ⟨hsame ▸ hready.stamp, hr ▸ hready.le, hr ▸ hready.lt, ?_⟩
        rw [ha, hsame]
        exact hready.vacant
      · refine .inr ⟨hsame ▸ hwritten.stamp, ha ▸ hwritten.lt, ha ▸ hwritten.le, ?_⟩
        rw [ha, hr, hsame]
        exact fun hle => hwritten.msg (by omega)

theorem Buffered.accept (h : Buffered cap g) (hc : 0 < cap) (msg : M)
    (hs : (g.buffer (g.accepted.length%cap)).stamp = stampOf cap g.accepted.length) :
    Buffered cap { g with tail := stampOf cap (g.accepted.length+1), accepted := g.accepted ++ [msg] } := by
  have hready := h.ready hc hs
  have hlen : (g.accepted ++ [msg]).length = g.accepted.length+1 := List.length_append
  constructor
  case head => exact h.head
  case tail =>
    left
    rw [hlen]
  case le =>
    rw [hlen]
    exact Nat.le_succ_of_le h.le
  case bounded =>
    rw [hlen]
    exact hready.lt
  case slots =>
    intro i hi
    obtain ⟨k, hk, hr | hw⟩ := h.slots i hi
    · refine ⟨k, hk, .inl ⟨hr.stamp, hr.le, hr.lt, fun hle => hr.vacant ?_⟩⟩
      rw [hlen] at hle
      exact Nat.le_of_succ_le hle
    · refine ⟨k, hk, .inr ⟨hw.stamp, ?_, ?_, ?_⟩⟩
      · rw [hlen]
        exact Nat.lt_succ_of_lt hw.lt
      · rw [hlen]
        have hne : g.accepted.length ≠ k+cap := by
          intro he
          have hmod : g.accepted.length%cap = k%cap := by rw [he, Nat.add_mod_right]
          have hstamp := hw.stamp
          rw [← hmod, hs] at hstamp
          exact stampOf_ne_succ hc hmod hstamp
        have := hw.le
        omega
      · intro hle
        rw [List.getElem?_append_left hw.lt]
        exact hw.msg hle

theorem Buffered.receive (h : Buffered cap g) (hc : 0 < cap)
    (hs : (g.buffer (g.received.length%cap)).stamp = stampOf cap g.received.length+1) :
    Buffered cap { g with head := stampOf cap (g.received.length+1), received := g.received ++ [none] } := by
  have hwritten := h.written hc hs
  have hlen : (g.received ++ [none]).length = g.received.length+1 := List.length_append
  constructor
  case head => rw [hlen]
  case tail => exact h.tail
  case le =>
    rw [hlen]
    exact hwritten.lt
  case bounded =>
    rw [hlen]
    have := h.bounded
    dsimp only
    omega
  case slots =>
    intro i hi
    obtain ⟨k, hk, hr | hw⟩ := h.slots i hi
    · refine ⟨k, hk, .inl ⟨hr.stamp, ?_, ?_, hr.vacant⟩⟩
      · rw [hlen]
        have hne : g.received.length ≠ k := by
          rintro rfl
          exact stampOf_ne_succ hc rfl (hr.stamp.symm.trans hs)
        have := hr.le
        omega
      · rw [hlen]
        have := hr.lt
        omega
    · refine ⟨k, hk, .inr ⟨hw.stamp, hw.lt, hw.le, fun hle => hw.msg ?_⟩⟩
      rw [hlen] at hle
      dsimp only at hle
      omega

theorem Buffered.mark (h : Buffered cap g) (hc : 0 < cap) :
    Buffered cap { g with tail := g.tail ||| markBit cap } := by
  have htail : g.tail ||| markBit cap = stampOf cap g.accepted.length+markBit cap := by
    rcases h.tail with ht | ht <;> rw [ht]
    · exact stampOf_or_mark hc
    · exact marked_or_mark hc
  refine ⟨h.head, .inr htail, h.le, h.bounded, fun i hi => ?_⟩
  obtain ⟨k, hk, hr | hw⟩ := h.slots i hi
  · exact ⟨k, hk, .inl ⟨hr.stamp, hr.le, hr.lt, hr.vacant⟩⟩
  · exact ⟨k, hk, .inr ⟨hw.stamp, hw.lt, hw.le, hw.msg⟩⟩

end Facts

end RustStd.MpmcArray
