import RustStd.Sync.MpmcArrayInv

/-!
# The bounded channel delivers what it accepts

One lemma for each step that changes the memory, and from them what holds of every
run: messages are handed out in the order in which they were accepted, a slot is
accessed by one thread at a time, and what nobody has received is dropped once.
-/

set_option autoImplicit false

namespace RustStd.MpmcArray
open RustStd.Threads

section Changes
variable {M : Type} {cap : ℕ} {g : Shared M} {ι : Type} [Fintype ι] [DecidableEq ι]
  {pc : ι → Thread M} {t : ι}

theorem Inv.accept (h : Inv cap g pc) (hc : 0 < cap) {msg : M} {tail : ℕ}
    (hp : (pc t).place = .sendCas msg tail) (htail : g.tail = tail) :
    Inv cap { g with tail := nextStamp cap tail, accepted := g.accepted ++ [msg] }
      (Function.update pc t ((pc t).go
        (.write msg (indexOf cap tail) (tail+1) g.accepted.length))) := by
  obtain ⟨k, hk, rfl, hs⟩ : Local cap g (.sendCas msg tail) := hp ▸ h.locals t
  -- The mark is not set, so the stamp is still the one of the tail.
  have hlast : g.tail = stampOf cap g.accepted.length := by
    refine h.buffered.tail.resolve_right fun hm => ?_
    have hmarked := isMarked_add_mark (k := g.accepted.length) hc
    rw [← hm, htail, isMarked_stampOf hc] at hmarked
    cases hmarked
  obtain rfl : k = g.accepted.length := stampOf_injective hc (htail.symm.trans hlast)
  have hs := hs rfl
  have hready := h.buffered.ready hc hs
  rw [nextStamp_stampOf hc, indexOf_stampOf hc]
  have hnotMarked : g.tail ≠ stampOf cap g.accepted.length+markBit cap := by
    rw [hlast]
    have := cap_lt_markBit cap
    omega
  have hopen : g.discarded = false := by
    rw [Bool.eq_false_iff]
    exact fun hf => hnotMarked (h.finished hf).1
  have hlen : (g.accepted ++ [msg]).length = g.accepted.length+1 := List.length_append
  have hacc : ∀ (k : ℕ) (m : M), g.accepted[k]? = some m → (g.accepted ++ [msg])[k]? = some m := by
    intro k m hm
    rw [List.getElem?_append_left (List.getElem?_eq_some_iff.mp hm).1, hm]
  apply h.step (h.buffered.accept hc msg hs)
  case hl =>
    refine ⟨rfl, rfl, ?_, hs, hready.vacant le_rfl⟩
    exact List.getElem?_concat_length
  case hothers =>
    intro u _
    apply (h.locals u).frame
    case hT =>
      rw [hlen]
      exact Nat.le_succ _
    case hH => exact le_rfl
    case hacc => exact hacc
    case hsend => exact fun _ _ => rfl
    case hread => exact fun _ _ => ⟨rfl, rfl⟩
    case hready =>
      intro k hk hk'
      rw [hlen] at hk'
      omega
    case hwritten => exact fun _ _ _ hs => hs
    case hdiscard => exact fun _ => ⟨rfl, rfl, fun hm => absurd hm hnotMarked⟩
  case hsender =>
    intro k hk
    exact .inr (Option.some_injective _ hk).le
  case hreader => exact nofun
  case hpending => exact fun k hk => .inl ⟨hk, fun slot stamp hr => nomatch hp.symm.trans hr⟩
  case hmatched => exact fun k m hm => hacc k m (h.matched k m hm)
  case hrecv => rfl
  case hrecvs => rfl
  case hreceives => exact nofun
  case hdiscards => exact nofun
  case hdropped => exact .inl
  case hfrom =>
    have hfrom := h.droppedFrom
    have hle : g.dropped.length ≤ (g.accepted.drop g.received.length).length := by
      rw [hfrom]
      exact List.length_take_le' ..
    dsimp only
    rw [List.drop_append_of_le_length h.buffered.le, List.take_append_of_le_length hle]
    exact hfrom
  case hfinished => exact fun hf => absurd (hopen.symm.trans hf) nofun

omit [DecidableEq ι] in
/-- A step that changes one slot, for which the thread has the token. -/
theorem Inv.others (h : Inv cap g pc) (hc : 0 < cap) {j : ℕ} {slot : Slot M} {g' : Shared M}
    (ht : senderAt (pc t).place = some j ∨ readerAt (pc t).place = some j)
    (hbuf : g'.buffer = Function.update g.buffer (j%cap) slot) (htail : g'.tail = g.tail)
    (ha : g'.accepted = g.accepted) (hlen : g'.received.length = g.received.length)
    (hr : ∀ k, k ≠ j → g'.received[k]? = g.received[k]?)
    (hd : g'.dropped = g.dropped) (hf : g'.discarded = g.discarded)
    (hready : g.accepted.length%cap = j%cap →
      (g.buffer (j%cap)).stamp = stampOf cap g.accepted.length →
      slot.stamp = stampOf cap g.accepted.length)
    (hwritten : ∀ k, k%cap = j%cap → (g.buffer (j%cap)).stamp = stampOf cap k+1 → k = g.received.length ∨
      (∃ u, Discards (pc u).place) → slot.stamp = stampOf cap k+1)
    (hdiscard : (∃ u, Discards (pc u).place) → g'.received = g.received) (u : ι) (hu : u ≠ t) :
    Local cap g' (pc u).place := by
  have hne : ∀ k, senderAt (pc u).place = some k ∨ readerAt (pc u).place = some k →
      k%cap ≠ j%cap := by
    rintro k (hk | hk)
    · rcases ht with ht | ht
      · exact h.senders_ne hc ht hk hu
      · exact (h.sender_reader_ne hc hk ht).symm
    · rcases ht with ht | ht
      · exact h.sender_reader_ne hc ht hk
      · exact h.readers_ne hc ht hk hu
  have hsame : ∀ k, k%cap ≠ j%cap → g'.buffer (k%cap) = g.buffer (k%cap) := by
    intro k hk
    rw [hbuf, Function.update_of_ne hk]
  have hslot : ∀ k s, (k%cap = j%cap → (g.buffer (j%cap)).stamp = s → slot.stamp = s) →
      (g.buffer (k%cap)).stamp = s → (g'.buffer (k%cap)).stamp = s := by
    intro k s hs hk
    by_cases he : k%cap = j%cap
    · rw [he] at hk
      rw [hbuf, he, Function.update_self]
      exact hs he hk
    · rwa [hsame k he]
  apply (h.locals u).frame
  case hT => rw [ha]
  case hH => rw [hlen]
  case hacc =>
    rw [ha]
    exact fun _ _ hm => hm
  case hsend => exact fun k hk => hsame k (hne k (.inl hk))
  case hread =>
    refine fun k hk => ⟨hsame k (hne k (.inr hk)), hr k ?_⟩
    rintro rfl
    exact hne k (.inr hk) rfl
  case hready =>
    rintro k - rfl
    rw [ha]
    exact hslot _ _ hready
  case hwritten =>
    intro k _ hk
    refine hslot k _ fun he hs => hwritten k he hs (.inl ?_)
    rw [hk, hlen]
  case hdiscard =>
    intro hdisc
    refine ⟨hd, hf, fun _ => ⟨htail, ha, hdiscard ⟨u, hdisc⟩, fun k => ?_⟩⟩
    exact hslot k _ fun he hs => hwritten k he hs (.inr ⟨u, hdisc⟩)

theorem Inv.write (h : Inv cap g pc) (hc : 0 < cap) {msg : M} {slot stamp k : ℕ}
    (hp : (pc t).place = .write msg slot stamp k) :
    Inv cap (setSlot g slot { g.buffer slot with msg := some msg })
      (Function.update pc t ((pc t).go (.writeStamp slot stamp k))) := by
  obtain ⟨rfl, rfl, ha, hs, hnone⟩ : Local cap g (.write msg slot stamp k) := hp ▸ h.locals t
  have hready := h.buffered.ready hc hs
  have hlt : k < g.accepted.length := (List.getElem?_eq_some_iff.mp ha).1
  have ht : senderAt (pc t).place = some k := by rw [hp]; rfl
  have hslot : (setSlot g (k%cap) { g.buffer (k%cap) with msg := some msg }).buffer (k%cap) =
      { g.buffer (k%cap) with msg := some msg } := Function.update_self ..
  apply h.keep
  case hb =>
    refine h.buffered.setSlot (j := k) rfl rfl rfl rfl le_rfl rfl ⟨k, rfl, .inl ?_⟩
    refine ⟨?_, hready.le, hready.lt, fun hle => absurd hlt (Nat.not_lt.mpr hle)⟩
    rw [hslot]
    exact hs
  case hl =>
    refine ⟨rfl, rfl, ?_⟩
    rw [hslot]
    exact ⟨hs, msg, rfl, ha⟩
  case hothers =>
    refine h.others hc (.inl ht) rfl rfl rfl rfl (fun _ _ => rfl) rfl rfl (fun _ => id) ?_ fun _ => rfl
    exact fun _ _ hs _ => hs
  case hsender => exact fun j hj => ht.trans hj
  case hread => exact fun slot stamp k hr => nomatch hp.symm.trans hr
  all_goals first | rfl | exact nofun

theorem Inv.writeStamp (h : Inv cap g pc) (hc : 0 < cap) {slot stamp k : ℕ}
    (hp : (pc t).place = .writeStamp slot stamp k) :
    Inv cap (setSlot g slot { g.buffer slot with stamp })
      (Function.update pc t ((pc t).go .sent)) := by
  obtain ⟨rfl, rfl, hs, msg, hmsg, ha⟩ : Local cap g (.writeStamp slot stamp k) := hp ▸ h.locals t
  have hready := h.buffered.ready hc hs
  have hlt : k < g.accepted.length := (List.getElem?_eq_some_iff.mp ha).1
  have ht : senderAt (pc t).place = some k := by rw [hp]; rfl
  have hslot : (setSlot g (k%cap) { g.buffer (k%cap) with stamp := stampOf cap k+1 }).buffer
      (k%cap) = { g.buffer (k%cap) with stamp := stampOf cap k+1 } := Function.update_self ..
  apply h.keep
  case hb =>
    refine h.buffered.setSlot (j := k) rfl rfl rfl rfl le_rfl rfl ⟨k, rfl, .inr ?_⟩
    refine ⟨?_, hlt, ?_, fun _ => ?_⟩
    · rw [hslot]
    · exact h.buffered.bounded.trans (Nat.add_le_add_right hready.le cap)
    · rw [hslot]
      exact hmsg.trans ha.symm
  case hl => trivial
  case hothers =>
    refine h.others hc (.inl ht) rfl rfl rfl rfl (fun _ _ => rfl) rfl rfl ?_ ?_ fun _ => rfl
    · exact fun _ hs' => absurd (stampOf_injective hc (hs.symm.trans hs')) hlt.ne
    · exact fun j he hs' _ => absurd (hs.symm.trans hs') (stampOf_ne_succ hc he.symm)
  case hread => exact fun slot stamp k hr => nomatch hp.symm.trans hr
  all_goals first | rfl | exact nofun

omit [DecidableEq ι] in
theorem Inv.open (h : Inv cap g pc) (hp : Receives (pc t).place) :
    g.dropped = [] ∧ g.discarded = false ∧ ∀ u, ¬ Discards (pc u).place := by
  have hzero : g.receivers ≠ 0 := fun hz => h.not_receives hz t hp
  refine ⟨?_, ?_, fun u hu => hzero (h.discarding u hu).1⟩
  · by_contra hd
    exact hzero (h.dropped (.inl hd))
  · rw [Bool.eq_false_iff]
    exact fun hd => hzero (h.dropped (.inr hd))

theorem Inv.receive (h : Inv cap g pc) (hc : 0 < cap) {head : ℕ}
    (hp : (pc t).place = .recvCas head) (hhead : g.head = head) :
    Inv cap { g with head := nextStamp cap head, received := g.received ++ [none] }
      (Function.update pc t ((pc t).go
        (.read (indexOf cap head) (head+oneLap cap) g.received.length))) := by
  obtain ⟨k, hk, rfl, hs⟩ : Local cap g (.recvCas head) := hp ▸ h.locals t
  obtain rfl : k = g.received.length := stampOf_injective hc (hhead.symm.trans h.buffered.head)
  have hs := hs rfl
  have hwritten := h.buffered.written hc hs
  obtain ⟨hempty, hopen, hnone⟩ := h.open (t := t) (by rw [hp]; trivial)
  have hlen : (g.received ++ [none]).length = g.received.length+1 := List.length_append
  have hmsg := hwritten.msg (by rw [hempty]; exact le_rfl)
  rw [nextStamp_stampOf hc, indexOf_stampOf hc, ← stampOf_add_cap hc]
  apply h.step (h.buffered.receive hc hs)
  case hl =>
    refine ⟨rfl, rfl, List.getElem?_concat_length, hs, ?_⟩
    have hget := List.getElem?_eq_getElem hwritten.lt
    exact ⟨_, hmsg.trans hget, hget⟩
  case hothers =>
    intro u _
    apply (h.locals u).frame
    case hT => exact le_rfl
    case hH =>
      rw [hlen]
      exact Nat.le_succ _
    case hacc => exact fun _ _ hm => hm
    case hsend => exact fun _ _ => rfl
    case hread =>
      intro k hk
      exact ⟨rfl, List.getElem?_append_left ((h.locals u).reader hk).2⟩
    case hready => exact fun _ _ _ hs => hs
    case hwritten => exact fun _ _ _ hs => hs
    case hdiscard => exact fun hd => absurd hd (hnone u)
  case hsender => exact nofun
  case hreader =>
    intro k hk
    exact .inr (Option.some_injective _ hk).le
  case hpending =>
    intro k hk
    rcases Nat.lt_or_ge k g.received.length with hlt | hge
    · rw [List.getElem?_append_left hlt] at hk
      exact .inl ⟨hk, fun slot stamp hr => nomatch hp.symm.trans hr⟩
    · have hlt := (List.getElem?_eq_some_iff.mp hk).1
      rw [hlen] at hlt
      obtain rfl : k = g.received.length := by omega
      exact .inr ⟨_, _, rfl⟩
  case hmatched =>
    intro k msg hk
    rcases Nat.lt_or_ge k g.received.length with hlt | hge
    · rw [List.getElem?_append_left hlt] at hk
      exact h.matched k msg hk
    · have hlt := (List.getElem?_eq_some_iff.mp hk).1
      rw [hlen] at hlt
      obtain rfl : k = g.received.length := by omega
      rw [List.getElem?_concat_length] at hk
      cases hk
  case hrecv => rfl
  case hrecvs => rfl
  case hreceives =>
    rw [hp]
    exact fun _ => .inl trivial
  case hdiscards => exact nofun
  case hdropped => exact .inl
  case hfrom =>
    dsimp only
    rw [hempty]
    rfl
  case hfinished => exact fun hf => absurd (hopen.symm.trans hf) nofun

theorem Inv.read (h : Inv cap g pc) (hc : 0 < cap) {slot stamp k : ℕ}
    (hp : (pc t).place = .read slot stamp k) {msg : M} (hm : (g.buffer slot).msg = some msg) :
    Inv cap { setSlot g slot { g.buffer slot with msg := none } with
      received := g.received.set k (some msg) }
      (Function.update pc t ((pc t).go (.readStamp slot stamp k msg))) := by
  obtain ⟨rfl, rfl, hr, hs, msg', hmsg, ha⟩ : Local cap g (.read slot stamp k) := hp ▸ h.locals t
  obtain rfl : msg = msg' := Option.some_injective _ (hm.symm.trans hmsg)
  have hwritten := h.buffered.written hc hs
  have hlt : k < g.received.length := (List.getElem?_eq_some_iff.mp hr).1
  have hreceives : Receives (pc t).place := by rw [hp]; trivial
  obtain ⟨hempty, hopen, hnone⟩ := h.open hreceives
  have ht : readerAt (pc t).place = some k := by rw [hp]; rfl
  have hslot : (setSlot g (k%cap) { g.buffer (k%cap) with msg := none }).buffer (k%cap) =
      { g.buffer (k%cap) with msg := none } := Function.update_self ..
  have hget : ∀ j, j ≠ k → (g.received.set k (some msg))[j]? = g.received[j]? :=
    fun j hj => List.getElem?_set_ne hj.symm
  apply h.step
  case hb =>
    refine h.buffered.setSlot (j := k) rfl rfl rfl List.length_set le_rfl rfl ⟨k, rfl, .inr ?_⟩
    refine ⟨?_, hwritten.lt, hwritten.le, fun hle => ?_⟩
    · dsimp only
      rw [hslot]
      exact hs
    · dsimp only at hle
      rw [List.length_set] at hle
      omega
  case hl =>
    refine ⟨rfl, rfl, List.getElem?_set_self hlt, ?_⟩
    dsimp only
    rw [hslot]
    exact ⟨hs, rfl⟩
  case hothers =>
    refine h.others hc (.inr ht) rfl rfl rfl List.length_set hget rfl rfl (fun _ => id) ?_ ?_
    · exact fun _ _ hs _ => hs
    · exact fun ⟨u, hu⟩ => absurd hu (hnone u)
  case hsender => exact nofun
  case hreader => exact fun j hj => .inl (ht.trans hj)
  case hpending =>
    intro j hj
    by_cases he : j = k
    · subst he
      rw [List.getElem?_set_self hlt] at hj
      cases hj
    · rw [hget j he] at hj
      refine .inl ⟨hj, fun slot stamp hr => ?_⟩
      rw [hp] at hr
      cases hr
      exact he rfl
  case hmatched =>
    intro j m hj
    by_cases he : j = k
    · subst he
      rw [List.getElem?_set_self hlt] at hj
      cases hj
      exact ha
    · rw [hget j he] at hj
      exact h.matched j m hj
  case hrecv => rfl
  case hrecvs => rfl
  case hreceives => exact fun _ => .inl hreceives
  case hdiscards => exact nofun
  case hdropped => exact .inl
  case hfrom =>
    dsimp only [setSlot]
    rw [hempty]
    rfl
  case hfinished => exact fun hf => absurd (hopen.symm.trans hf) nofun

theorem Inv.readStamp (h : Inv cap g pc) (hc : 0 < cap) {slot stamp k : ℕ} {msg : M}
    (hp : (pc t).place = .readStamp slot stamp k msg) :
    Inv cap (setSlot g slot { g.buffer slot with stamp })
      (Function.update pc t ((pc t).go (.received msg))) := by
  obtain ⟨rfl, rfl, hr, hs, hnone⟩ : Local cap g (.readStamp slot stamp k msg) := hp ▸ h.locals t
  have hwritten := h.buffered.written hc hs
  have hlt : k < g.received.length := (List.getElem?_eq_some_iff.mp hr).1
  obtain ⟨-, -, hdisc⟩ := h.open (t := t) (by rw [hp]; trivial)
  have ht : readerAt (pc t).place = some k := by rw [hp]; rfl
  have hmod : (k+cap)%cap = k%cap := Nat.add_mod_right k cap
  have hslot : (setSlot g (k%cap) { g.buffer (k%cap) with stamp := stampOf cap (k+cap) }).buffer
      (k%cap) = { g.buffer (k%cap) with stamp := stampOf cap (k+cap) } := Function.update_self ..
  apply h.keep
  case hb =>
    refine h.buffered.setSlot (j := k) rfl rfl rfl rfl le_rfl rfl ⟨k+cap, hmod, .inl ?_⟩
    refine ⟨?_, ?_, Nat.add_lt_add_right hlt cap, fun _ => ?_⟩
    · rw [hmod, hslot]
    · exact h.buffered.le.trans hwritten.le
    · rw [hmod, hslot]
      exact hnone
  case hl => trivial
  case hothers =>
    refine h.others hc (.inr ht) rfl rfl rfl rfl (fun _ _ => rfl) rfl rfl ?_ ?_ fun _ => rfl
    · exact fun he hs' => absurd (hs'.symm.trans hs) (stampOf_ne_succ hc he)
    · rintro j - hs' (rfl | ⟨u, hu⟩)
      · exact absurd (stampOf_injective hc (Nat.succ_injective (hs.symm.trans hs'))) hlt.ne
      · exact absurd hu (hdisc u)
  case hread => exact fun slot stamp k hr => nomatch hp.symm.trans hr
  all_goals first | rfl | exact nofun

omit [DecidableEq ι] in
theorem Inv.tail_or_mark (h : Inv cap g pc) (hc : 0 < cap) :
    g.tail ||| markBit cap = stampOf cap g.accepted.length+markBit cap ∧
      andNot g.tail (markBit cap) = stampOf cap g.accepted.length := by
  rcases h.buffered.tail with ht | ht <;> rw [ht]
  · exact ⟨stampOf_or_mark hc, andNot_mark hc⟩
  · exact ⟨marked_or_mark hc, andNot_add_mark hc⟩

omit [DecidableEq ι] in
theorem Inv.locals_mark (h : Inv cap g pc) (hc : 0 < cap) (u : ι) :
    Local cap { g with tail := g.tail ||| markBit cap } (pc u).place := by
  apply (h.locals u).frame
  case hT => exact le_rfl
  case hH => exact le_rfl
  case hacc => exact fun _ _ hm => hm
  case hsend => exact fun _ _ => rfl
  case hread => exact fun _ _ => ⟨rfl, rfl⟩
  case hready => exact fun _ _ _ hs => hs
  case hwritten => exact fun _ _ _ hs => hs
  case hdiscard =>
    refine fun _ => ⟨rfl, rfl, fun hm => ⟨?_, rfl, rfl, fun _ hs => hs⟩⟩
    exact (h.tail_or_mark hc).1.trans hm.symm

theorem Inv.mark (h : Inv cap g pc) (hc : 0 < cap) {p : Place M}
    (hl : Local cap { g with tail := g.tail ||| markBit cap } p) (hs : senderAt p = none)
    (hr : readerAt p = none) (hread : ∀ slot stamp k, (pc t).place ≠ .read slot stamp k)
    (hreceives : ¬ Receives p) (hdiscards : Discards p → Discards (pc t).place) :
    Inv cap { g with tail := g.tail ||| markBit cap } (Function.update pc t ((pc t).go p)) := by
  apply h.step (h.buffered.mark hc) hl fun u _ => h.locals_mark hc u
  case hsender =>
    intro k hk
    cases hs.symm.trans hk
  case hreader =>
    intro k hk
    cases hr.symm.trans hk
  case hpending => exact fun k hk => .inl ⟨hk, fun slot stamp => hread slot stamp k⟩
  case hmatched => exact h.matched
  case hrecv => rfl
  case hrecvs => rfl
  case hreceives => exact fun h => absurd h hreceives
  case hdiscards => exact hdiscards
  case hdropped => exact .inl
  case hfrom => exact h.droppedFrom
  case hfinished =>
    intro hf
    obtain ⟨-, hlen, -⟩ := h.finished hf
    exact ⟨(h.tail_or_mark hc).1, hlen, .inl hf⟩

omit [Fintype ι] [DecidableEq ι] in
theorem Buffered.counts (h : Buffered cap g) (senders receivers : ℕ) (discarded : Bool) :
    Buffered cap { g with senders, receivers, discarded } := by
  refine ⟨h.head, h.tail, h.le, h.bounded, fun i hi => ?_⟩
  obtain ⟨k, hk, hr | hw⟩ := h.slots i hi
  · exact ⟨k, hk, .inl ⟨hr.stamp, hr.le, hr.lt, hr.vacant⟩⟩
  · exact ⟨k, hk, .inr ⟨hw.stamp, hw.lt, hw.le, hw.msg⟩⟩

theorem Inv.discarded (h : Inv cap g pc) (hc : 0 < cap) {head : ℕ}
    (hp : (pc t).place = .discard head head) :
    Inv cap { g with discarded := true } (Function.update pc t ((pc t).go .idle)) := by
  obtain ⟨htail, hhead, hhead', hle⟩ : Local cap g (.discard head head) := hp ▸ h.locals t
  have hdone := stampOf_injective hc (hhead'.symm.trans hhead)
  have hdisc : Discards (pc t).place := by rw [hp]; trivial
  apply h.step
  case hb => exact h.buffered.counts g.senders g.receivers true
  case hl => trivial
  case hothers =>
    intro u hu
    apply (h.locals u).frame
    case hT => exact le_rfl
    case hH => exact le_rfl
    case hacc => exact fun _ _ hm => hm
    case hsend => exact fun _ _ => rfl
    case hread => exact fun _ _ => ⟨rfl, rfl⟩
    case hready => exact fun _ _ _ hs => hs
    case hwritten => exact fun _ _ _ hs => hs
    case hdiscard => exact fun hd => absurd ((h.discarding t hdisc).2 u hd) hu
  case hsender => exact nofun
  case hreader => exact nofun
  case hpending => exact fun k hk => .inl ⟨hk, fun slot stamp hr => nomatch hp.symm.trans hr⟩
  case hmatched => exact h.matched
  case hrecv => rfl
  case hrecvs => rfl
  case hreceives => exact nofun
  case hdiscards => exact nofun
  case hdropped => exact fun _ => .inr hdisc
  case hfrom => exact h.droppedFrom
  case hfinished => exact fun _ => ⟨htail, hdone, .inr ⟨hdisc, id⟩⟩

theorem Inv.discardDrop (h : Inv cap g pc) (hc : 0 < cap) {tail head : ℕ}
    (hp : (pc t).place = .discardDrop tail head) {msg : M}
    (hm : (g.buffer (indexOf cap head)).msg = some msg) :
    Inv cap { setSlot g (indexOf cap head) { g.buffer (indexOf cap head) with msg := none } with
      dropped := g.dropped ++ [msg] }
      (Function.update pc t ((pc t).go (.discard tail (nextStamp cap head)))) := by
  obtain ⟨htail, rfl, rfl, hs⟩ : Local cap g (.discardDrop tail head) := hp ▸ h.locals t
  have hwritten := h.buffered.written hc hs
  have hdisc : Discards (pc t).place := by rw [hp]; trivial
  obtain ⟨hzero, huniq⟩ := h.discarding t hdisc
  rw [indexOf_stampOf hc] at hm ⊢
  rw [nextStamp_stampOf hc]
  have hlen : (g.dropped ++ [msg]).length = g.dropped.length+1 := List.length_append
  have hget : g.accepted[g.received.length+g.dropped.length]? = some msg :=
    (hwritten.msg le_rfl).symm.trans hm
  generalize hD : g.received.length+g.dropped.length = D at hm hs hwritten hget ⊢
  have hslot : (setSlot g (D%cap) { g.buffer (D%cap) with msg := none }).buffer (D%cap) =
      { g.buffer (D%cap) with msg := none } := Function.update_self ..
  apply h.step
  case hb =>
    refine h.buffered.setSlot (j := D) rfl rfl rfl rfl ?_ rfl ⟨D, rfl, .inr ?_⟩
    · rw [hlen]
      exact Nat.le_succ _
    · refine ⟨?_, hwritten.lt, hwritten.le, fun hle => ?_⟩
      · dsimp only
        rw [hslot]
        exact hs
      · dsimp only [setSlot] at hle
        rw [hlen] at hle
        omega
  case hl =>
    refine ⟨htail, rfl, ?_, ?_⟩
    · dsimp only [setSlot]
      rw [hlen, ← hD, Nat.add_assoc]
    · dsimp only [setSlot]
      rw [hlen]
      have := hwritten.lt
      omega
  case hothers =>
    intro u hu
    have hne : ∀ k, senderAt (pc u).place = some k → k%cap ≠ D%cap := by
      intro k hk he
      have hstamp := ((h.locals u).sender hk).1
      rw [he, hs] at hstamp
      exact stampOf_ne_succ hc he hstamp.symm
    have hstamp : ∀ k, ((setSlot g (D%cap) { g.buffer (D%cap) with msg := none }).buffer
        (k%cap)).stamp = (g.buffer (k%cap)).stamp := by
      intro k
      by_cases he : k%cap = D%cap
      · rw [he, hslot]
      · exact congrArg Slot.stamp (Function.update_of_ne he ..)
    apply (h.locals u).frame
    case hT => exact le_rfl
    case hH => exact le_rfl
    case hacc => exact fun _ _ hm => hm
    case hsend => exact fun k hk => Function.update_of_ne (hne k hk) ..
    case hread =>
      intro k hk
      exact absurd (receives_of_readerAt hk) (h.not_receives hzero u)
    case hready => exact fun k _ _ hs => (hstamp k).trans hs
    case hwritten => exact fun k _ _ hs => (hstamp k).trans hs
    case hdiscard => exact fun hd => absurd (huniq u hd) hu
  case hsender => exact nofun
  case hreader => exact nofun
  case hpending => exact fun k hk => .inl ⟨hk, fun slot stamp hr => nomatch hp.symm.trans hr⟩
  case hmatched => exact h.matched
  case hrecv => rfl
  case hrecvs => rfl
  case hreceives => exact nofun
  case hdiscards => exact fun _ => hdisc
  case hdropped => exact fun _ => .inr hdisc
  case hfrom =>
    dsimp only [setSlot]
    rw [hlen, List.take_add_one, ← h.droppedFrom, List.getElem?_drop, hD, hget]
    rfl
  case hfinished =>
    intro hf
    exact absurd hdisc ((h.finished hf).2.2 t)

theorem Inv.handles (h : Inv cap g pc) {th : Thread M} (senders : ℕ) {receivers : ℕ}
    (ht : Outside (pc t).place)
    (hth : th.place = .idle ∨ th.place = .disconnectSenders ∨ th.place = .disconnectReceivers)
    (hsum : receivers+(pc t).receiver.toNat = g.receivers+th.receiver.toNat)
    (hzero : g.receivers = 0 → receivers = 0)
    (hlast : th.place = .disconnectReceivers → receivers = 0 ∧ g.receivers ≠ 0) :
    Inv cap { g with senders, receivers } (Function.update pc t th) := by
  have hnone : senderAt th.place = none ∧ readerAt th.place = none ∧ ¬ Receives th.place := by
    rcases hth with hp | hp | hp <;> rw [hp] <;> exact ⟨rfl, rfl, id⟩
  have hdisc : Discards th.place → receivers = 0 ∧ g.receivers ≠ 0 := by
    intro hd
    rcases hth with hp | hp | hp
    · rw [hp] at hd
      exact hd.elim
    · rw [hp] at hd
      exact hd.elim
    · exact hlast hp
  have hdropped : g.dropped ≠ [] ∨ g.discarded = true → ¬ Discards th.place :=
    fun hd hth => (hdisc hth).2 (h.dropped hd)
  constructor
  case buffered => exact h.buffered.counts senders receivers g.discarded
  case locals =>
    apply forall_update (Q := fun th : Thread M => Local cap _ th.place)
    · rcases hth with hp | hp | hp <;> rw [hp]
      · trivial
      · trivial
      · have hopen := fun hd => hdropped hd (by rw [hp]; trivial)
        rw [imp_false, not_or, not_not, Bool.not_eq_true] at hopen
        exact hopen
    · intro u _
      have hl := h.locals u
      cases hp : (pc u).place <;> rw [hp] at hl <;> exact hl
  case senders =>
    apply unique_update (fun th : Thread M => senderAt th.place) h.senders
    exact fun k hk => nomatch hnone.1.symm.trans hk
  case readers =>
    apply unique_update (fun th : Thread M => readerAt th.place) h.readers
    exact fun k hk => nomatch hnone.2.1.symm.trans hk
  case pending =>
    intro k hk
    obtain ⟨u, slot, stamp, hu⟩ := h.pending k hk
    refine ⟨u, slot, stamp, ?_⟩
    rw [Function.update_of_ne]
    · exact hu
    · rintro rfl
      rw [hu] at ht
      exact ht
  case matched => exact h.matched
  case receiving =>
    apply forall_update (Q := fun th : Thread M => Receives th.place → th.receiver = true)
    · exact fun hr => absurd hr hnone.2.2
    · exact fun u _ => h.receiving u
  case receivers =>
    have hupdate := sum_update (fun th : Thread M => th.receiver.toNat) pc t th
    rw [h.receivers, ← hsum, Nat.add_right_cancel_iff] at hupdate
    exact hupdate
  case discarding =>
    intro u hu
    rcases update_cases pc t th u with ⟨rfl, he⟩ | ⟨hne, he⟩ <;> rw [he] at hu
    · obtain ⟨hr, hg⟩ := hdisc hu
      refine ⟨hr, fun v hv => ?_⟩
      rcases update_cases pc u th v with ⟨rfl, -⟩ | ⟨-, he⟩
      · rfl
      · rw [he] at hv
        exact absurd (h.discarding v hv).1 hg
    · obtain ⟨hg, huniq⟩ := h.discarding u hu
      refine ⟨hzero hg, fun v hv => ?_⟩
      rcases update_cases pc t th v with ⟨rfl, he⟩ | ⟨-, he⟩ <;> rw [he] at hv
      · exact absurd hg (hdisc hv).2
      · exact huniq v hv
  case dropped => exact fun hd => hzero (h.dropped hd)
  case droppedFrom => exact h.droppedFrom
  case finished =>
    intro hf
    obtain ⟨htail, hlen, hno⟩ := h.finished hf
    refine ⟨htail, hlen, ?_⟩
    exact forall_update (Q := fun th : Thread M => ¬ Discards th.place) (hdropped (.inr hf))
      fun u _ => hno u

theorem Inv.called (h : Inv cap g pc) {g' : Shared M} {th : Thread M} (ht : Outside (pc t).place)
    (hc : Called g (pc t) (g', th)) : Inv cap g' (Function.update pc t th) := by
  have hread : ∀ slot stamp k, (pc t).place ≠ .read slot stamp k := by
    intro slot stamp k hp
    rw [hp] at ht
    exact ht
  cases hc with
  | send msg hs => exact h.quiet trivial rfl rfl hread nofun nofun
  | recv hr => exact h.quiet trivial rfl rfl hread (fun _ => .inr hr) nofun
  | dropSender hs =>
    refine h.handles (g.senders-1) ht ?_ rfl id ?_
    · dsimp only
      split_ifs
      · exact .inr (.inl rfl)
      · exact .inl rfl
    · dsimp only
      split_ifs <;> exact nofun
  | dropReceiver hr =>
    have hpos : 0 < g.receivers := by
      rw [Nat.pos_iff_ne_zero]
      intro hz
      rw [h.no_receiver hz t] at hr
      cases hr
    refine h.handles g.senders ht ?_ ?_ ?_ ?_
    · dsimp only
      split_ifs
      · exact .inr (.inr rfl)
      · exact .inl rfl
    · dsimp only
      rw [hr, Bool.toNat_true, Bool.toNat_false]
      omega
    · exact fun hz => absurd hz hpos.ne'
    · dsimp only
      split_ifs with hone
      · exact fun _ => ⟨by rw [hone], hpos.ne'⟩
      · exact nofun
  | cloneSender hs hg => exact h.handles (g.senders+1) ht (.inl rfl) rfl id nofun
  | cloneReceiver hr hg =>
    refine h.handles g.senders ht (.inl rfl) ?_ (fun hz => absurd hz hg.ne') nofun
    dsimp only
    rw [hr, Bool.toNat_true, Bool.toNat_false]

def After (cap : ℕ) (pc : ι → Thread M) (t : ι) (r : Result M) : Prop :=
  Inv cap r.1 (Function.update pc t r.2)

theorem Inv.sends (h : Inv cap g pc) {p : Place M} (hp : ¬ Receives (pc t).place) (hl : Local cap g p)
    (hs : senderAt p = none) (hr : readerAt p = none) (hnot : ¬ Receives p ∧ ¬ Discards p) :
    After cap pc t (stay g (pc t) p) := by
  refine h.quiet hl hs hr ?_ (fun h => absurd h hnot.1) fun h => absurd h hnot.2
  intro slot stamp k hread
  rw [hread] at hp
  exact hp trivial

theorem Inv.sendStamp (h : Inv cap g pc) (hc : 0 < cap) {msg : M} {tail : ℕ}
    (hp : (pc t).place = .sendStamp msg tail) :
    After cap pc t (sendStamp cap g (pc t) msg tail) := by
  have hnot : ¬ Receives (pc t).place := by
    rw [hp]
    exact id
  obtain ⟨k, hk, htail⟩ : Local cap g (.sendStamp msg tail) := hp ▸ h.locals t
  unfold MpmcArray.sendStamp
  by_cases hm : isMarked cap tail = true
  · rw [if_pos hm]
    exact h.sends hnot trivial rfl rfl ⟨id, id⟩
  rw [if_neg hm]
  obtain rfl : tail = stampOf cap k := by
    refine htail.resolve_right fun ht => hm ?_
    rw [ht]
    exact isMarked_add_mark hc
  dsimp only
  rw [indexOf_stampOf hc, if_pos (Nat.mod_lt k hc)]
  split_ifs with he
  · exact h.sends hnot ⟨k, hk, rfl, fun _ => he.symm⟩ rfl rfl ⟨id, id⟩
  · exact h.sends hnot ⟨k, hk, rfl⟩ rfl rfl ⟨id, id⟩
  · exact h.sends hnot trivial rfl rfl ⟨id, id⟩

theorem Inv.sendHead (h : Inv cap g pc) (hc : 0 < cap) {msg : M} {tail : ℕ}
    (hp : (pc t).place = .sendHead msg tail) :
    After cap pc t (sendHead cap g (pc t) msg tail) := by
  have hnot : ¬ Receives (pc t).place := by
    rw [hp]
    exact id
  obtain ⟨k, hk, rfl⟩ : Local cap g (.sendHead msg tail) := hp ▸ h.locals t
  unfold MpmcArray.sendHead
  split_ifs with he
  · refine h.sends hnot ?_ rfl rfl ⟨id, id⟩
    rw [h.buffered.head, ← stampOf_add_cap hc] at he
    have hfull := stampOf_injective hc he
    have := h.buffered.bounded
    change g.accepted.length-g.received.length = cap
    omega
  · exact h.sends hnot trivial rfl rfl ⟨id, id⟩

theorem Inv.receives (h : Inv cap g pc) {p : Place M} (hp : Receives (pc t).place)
    (hread : ∀ slot stamp k, (pc t).place ≠ .read slot stamp k) (hl : Local cap g p)
    (hs : senderAt p = none) (hr : readerAt p = none) (hnot : ¬ Discards p) :
    After cap pc t (stay g (pc t) p) :=
  h.quiet hl hs hr hread (fun _ => .inl hp) fun h => absurd h hnot

theorem Inv.recvStamp (h : Inv cap g pc) (hc : 0 < cap) {head : ℕ}
    (hp : (pc t).place = .recvStamp head) : After cap pc t (recvStamp cap g (pc t) head) := by
  have hrecv : Receives (pc t).place := by
    rw [hp]
    trivial
  have hread : ∀ slot stamp k, (pc t).place ≠ .read slot stamp k := by
    rw [hp]
    exact nofun
  obtain ⟨k, hk, rfl⟩ : Local cap g (.recvStamp head) := hp ▸ h.locals t
  unfold MpmcArray.recvStamp
  dsimp only
  rw [indexOf_stampOf hc, if_pos (Nat.mod_lt k hc)]
  split_ifs with he
  · exact h.receives hrecv hread ⟨k, hk, rfl, fun _ => he.symm⟩ rfl rfl id
  · exact h.receives hrecv hread ⟨k, hk, rfl⟩ rfl rfl id
  · exact h.receives hrecv hread trivial rfl rfl id

theorem Inv.recvTail (h : Inv cap g pc) (hc : 0 < cap) {head : ℕ}
    (hp : (pc t).place = .recvTail head) : After cap pc t (recvTail cap g (pc t) head) := by
  have hrecv : Receives (pc t).place := by
    rw [hp]
    trivial
  have hread : ∀ slot stamp k, (pc t).place ≠ .read slot stamp k := by
    rw [hp]
    exact nofun
  obtain ⟨k, hk, rfl⟩ : Local cap g (.recvTail head) := hp ▸ h.locals t
  unfold MpmcArray.recvTail
  dsimp only
  rw [(h.tail_or_mark hc).2]
  split_ifs with he
  · exact h.receives hrecv hread trivial rfl rfl id
  · refine h.receives hrecv hread ?_ rfl rfl id
    have hempty := stampOf_injective hc he
    have := h.buffered.le
    change g.accepted.length-g.received.length = 0
    omega
  · exact h.receives hrecv hread trivial rfl rfl id

theorem Inv.discards (h : Inv cap g pc) {p : Place M} (hp : Discards (pc t).place) (hl : Local cap g p)
    (hs : senderAt p = none) (hr : readerAt p = none) (hnot : ¬ Receives p) :
    After cap pc t (stay g (pc t) p) := by
  refine h.quiet hl hs hr ?_ (fun h => absurd h hnot) fun _ => hp
  intro slot stamp k hread
  rw [hread] at hp
  exact hp

theorem Inv.discard (h : Inv cap g pc) (hc : 0 < cap) {tail head : ℕ}
    (hp : (pc t).place = .discard tail head) : After cap pc t (discard cap g (pc t) tail head) := by
  have hdisc : Discards (pc t).place := by
    rw [hp]
    trivial
  obtain ⟨htail, rfl, rfl, hle⟩ : Local cap g (.discard tail head) := hp ▸ h.locals t
  unfold MpmcArray.discard
  dsimp only
  rw [indexOf_stampOf hc, if_pos (Nat.mod_lt _ hc)]
  split_ifs with he hd
  · exact h.discards hdisc ⟨htail, rfl, rfl, he.symm⟩ rfl rfl id
  · exact h.discarded hc (hd ▸ hp)
  · exact h.discards hdisc ⟨htail, rfl, rfl, hle⟩ rfl rfl id

theorem after_mem {r r' : Result M} (h : After cap pc t r) (hr : r' ∈ [r]) : After cap pc t r' :=
  List.mem_singleton.mp hr ▸ h

theorem Inv.stepped (h : Inv cap g pc) (hc : 0 < cap) {r : Result M} (hr : r ∈ steps cap g (pc t)) :
    After cap pc t r := by
  unfold steps at hr
  cases hp : (pc t).place with
  | sendTail msg =>
    rw [hp] at hr
    refine after_mem (h.sends (by rw [hp]; exact id) ?_ rfl rfl ⟨id, id⟩) hr
    exact ⟨_, le_rfl, h.buffered.tail⟩
  | sendStamp msg tail =>
    rw [hp] at hr
    exact after_mem (h.sendStamp hc hp) hr
  | sendCas msg tail =>
    rw [hp] at hr
    rcases List.mem_cons.mp hr with rfl | hr
    · exact h.sends (by rw [hp]; exact id) trivial rfl rfl ⟨id, id⟩
    · split_ifs at hr with htail
      · refine after_mem ?_ hr
        exact h.accept hc hp htail
      · cases hr
  | sendHead msg tail =>
    rw [hp] at hr
    exact after_mem (h.sendHead hc hp) hr
  | write msg slot stamp k =>
    rw [hp] at hr
    refine after_mem ?_ hr
    exact h.write hc hp
  | writeStamp slot stamp k =>
    rw [hp] at hr
    refine after_mem ?_ hr
    exact h.writeStamp hc hp
  | recvHead =>
    rw [hp] at hr
    refine after_mem (h.receives (by rw [hp]; trivial) (by rw [hp]; nofun) ?_ rfl rfl id) hr
    exact ⟨_, le_rfl, h.buffered.head⟩
  | recvStamp head =>
    rw [hp] at hr
    exact after_mem (h.recvStamp hc hp) hr
  | recvCas head =>
    rw [hp] at hr
    rcases List.mem_cons.mp hr with rfl | hr
    · exact h.receives (by rw [hp]; trivial) (by rw [hp]; nofun) trivial rfl rfl id
    · split_ifs at hr with hhead
      · refine after_mem ?_ hr
        exact h.receive hc hp hhead
      · cases hr
  | recvTail head =>
    rw [hp] at hr
    exact after_mem (h.recvTail hc hp) hr
  | read slot stamp k =>
    rw [hp] at hr
    refine after_mem ?_ hr
    obtain ⟨rfl, -, -, -, msg, hmsg, -⟩ : Local cap g (.read slot stamp k) := hp ▸ h.locals t
    unfold MpmcArray.read
    rw [hmsg]
    exact h.read hc hp hmsg
  | readStamp slot stamp k msg =>
    rw [hp] at hr
    refine after_mem ?_ hr
    exact h.readStamp hc hp
  | disconnectSenders =>
    rw [hp] at hr
    refine after_mem ?_ hr
    exact h.mark hc trivial rfl rfl (by rw [hp]; nofun) id nofun
  | disconnectReceivers =>
    rw [hp] at hr
    obtain ⟨hd, hf⟩ : Local cap g .disconnectReceivers := hp ▸ h.locals t
    refine after_mem ?_ hr
    refine h.mark hc ?_ rfl rfl (by rw [hp]; nofun) id (by rw [hp]; exact id)
    exact ⟨hd, h.tail_or_mark hc⟩
  | discardAll tail =>
    rw [hp] at hr
    refine after_mem ?_ hr
    have hl : Local cap g (.discardAll tail) := hp ▸ h.locals t
    rw [hl.2.1, isMarked_add_mark hc, if_pos rfl]
    exact h.discards (by rw [hp]; trivial) hl rfl rfl id
  | discardHead tail =>
    rw [hp] at hr
    refine after_mem (h.discards (by rw [hp]; trivial) ?_ rfl rfl id) hr
    obtain ⟨hd, htail, hnot⟩ : Local cap g (.discardHead tail) := hp ▸ h.locals t
    refine ⟨htail, hnot, ?_, ?_⟩ <;> rw [hd]
    · exact h.buffered.head
    · exact h.buffered.le
  | discard tail head =>
    rw [hp] at hr
    exact after_mem (h.discard hc hp) hr
  | discardDrop tail head =>
    rw [hp] at hr
    refine after_mem ?_ hr
    obtain ⟨htail, -, rfl, hs⟩ : Local cap g (.discardDrop tail head) := hp ▸ h.locals t
    have hwritten := h.buffered.written hc hs
    have hmsg := (hwritten.msg le_rfl).trans (List.getElem?_eq_getElem hwritten.lt)
    rw [← indexOf_stampOf hc] at hmsg
    unfold MpmcArray.discardDrop
    dsimp only
    rw [hmsg]
    exact h.discardDrop hc hp hmsg
  | _ =>
    rw [hp] at hr
    cases hr

end Changes

section Claims
variable {M : Type} {cap : ℕ} {ι : Type} [Fintype ι]

/-- The slot whose message the thread's next step writes, takes or drops. -/
def accesses (cap : ℕ) : Place M → Option ℕ
  | .write _ slot _ _ => some slot
  | .read slot _ _ => some slot
  | .discardDrop _ head => some (indexOf cap head)
  | _ => none

/-- What the channel guarantees in every reachable state. -/
structure Delivers (cap : ℕ) (s : Config ι (Shared M) (Thread M)) : Prop where
  length : s.shared.received.length ≤ s.shared.accepted.length
  /-- What the `k`-th update of the head hands out is the `k`-th message. -/
  order : ∀ (k : ℕ) (msg : M), s.shared.received[k]? = some (some msg) →
    s.shared.accepted[k]? = some msg
  /-- What has not been handed out yet is about to be, by one thread. -/
  pending : ∀ k, s.shared.received[k]? = some none ↔
    ∃! t, ∃ slot stamp, (s.pc t).place = .read slot stamp k
  settled : (∀ t slot stamp k, (s.pc t).place ≠ .read slot stamp k) →
    s.shared.received = (s.shared.accepted.take s.shared.received.length).map some
  exclusive : ∀ t u i, accesses cap (s.pc t).place = some i → accesses cap (s.pc u).place = some i →
    t = u
  writes : ∀ t msg slot stamp k, (s.pc t).place = .write msg slot stamp k →
    (s.shared.buffer slot).msg = none
  /-- The message is there and its sender has done with the slot. -/
  reads : ∀ t slot stamp k, (s.pc t).place = .read slot stamp k →
    (∃ msg, (s.shared.buffer slot).msg = some msg ∧ s.shared.accepted[k]? = some msg) ∧
      ∀ u j, senderAt (s.pc u).place = some j → j%cap ≠ slot
  full : ∀ t n, (s.pc t).place = .full n → n = cap
  empty : ∀ t n, (s.pc t).place = .empty n → n = 0
  dropped : s.shared.dropped =
    (s.shared.accepted.drop s.shared.received.length).take s.shared.dropped.length
  discarded : s.shared.discarded = true →
    s.shared.dropped = s.shared.accepted.drop s.shared.received.length
  asserts : ∀ t, (s.pc t).place ≠ .failed

variable {g : Shared M} {pc : ι → Thread M}

theorem Inv.accessed (h : Inv cap g pc) (hc : 0 < cap) {t : ι} {i : ℕ}
    (ht : accesses cap (pc t).place = some i) :
    ∃ k, k%cap = i ∧ (senderAt (pc t).place = some k ∨ readerAt (pc t).place = some k ∨
      Discards (pc t).place ∧ (g.buffer (k%cap)).stamp = stampOf cap k+1) := by
  have hl := h.locals t
  cases hp : (pc t).place <;> rw [hp] at ht hl <;> try cases ht
  case write msg stamp k => exact ⟨k, hl.1.symm, .inl rfl⟩
  case read stamp k => exact ⟨k, hl.1.symm, .inr (.inl rfl)⟩
  case discardDrop tail head =>
    obtain ⟨-, -, rfl, hs⟩ := hl
    exact ⟨_, (indexOf_stampOf hc).symm, .inr (.inr ⟨trivial, hs⟩)⟩

theorem Inv.exclusive (h : Inv cap g pc) (hc : 0 < cap) {t u : ι} {i : ℕ}
    (ht : accesses cap (pc t).place = some i) (hu : accesses cap (pc u).place = some i) : u = t := by
  obtain ⟨j, rfl, hj⟩ := h.accessed hc ht
  obtain ⟨k, hk, hk'⟩ := h.accessed hc hu
  by_contra hne
  -- A slot that is being discarded has been written, and nobody receives any more.
  have hdiscard : ∀ v w a b, a%cap = b%cap → Discards (pc v).place →
      (g.buffer (a%cap)).stamp = stampOf cap a+1 → senderAt (pc w).place ≠ some b := by
    intro v w a b hab _ hs hb
    have hstamp := ((h.locals w).sender hb).1
    rw [← hab, hs] at hstamp
    exact stampOf_ne_succ hc hab.symm hstamp.symm
  have hreader : ∀ v w b, Discards (pc v).place → readerAt (pc w).place ≠ some b := by
    intro v w b hv hb
    exact h.not_receives (h.discarding v hv).1 w (receives_of_readerAt hb)
  rcases hj with hj | hj | ⟨hd, hs⟩ <;> rcases hk' with hk' | hk' | ⟨hd', hs'⟩
  · exact h.senders_ne hc hj hk' hne hk
  · exact h.sender_reader_ne hc hj hk' hk
  · exact hdiscard u t k j hk hd' hs' hj
  · exact h.sender_reader_ne hc hk' hj hk.symm
  · exact h.readers_ne hc hj hk' hne hk
  · exact hreader u t j hd' hj
  · exact hdiscard t u j k hk.symm hd hs hk'
  · exact hreader t u k hd hk'
  · exact hne ((h.discarding t hd).2 u hd')

theorem Inv.delivers (h : Inv cap g pc) (hc : 0 < cap) : Delivers cap ⟨g, pc⟩ := by
  have hread : ∀ t slot stamp k, (pc t).place = .read slot stamp k →
      readerAt (pc t).place = some k := by
    intro t slot stamp k ht
    rw [ht]
    rfl
  constructor
  case length => exact h.buffered.le
  case order => exact h.matched
  case pending =>
    intro k
    constructor
    · intro hk
      obtain ⟨t, slot, stamp, ht⟩ := h.pending k hk
      refine ⟨t, ⟨slot, stamp, ht⟩, ?_⟩
      rintro u ⟨slot', stamp', hu⟩
      exact h.readers u t k (hread u _ _ k hu) (hread t _ _ k ht)
    · rintro ⟨t, ⟨slot, stamp, ht⟩, -⟩
      have hl : Local cap g (.read slot stamp k) := ht ▸ h.locals t
      exact hl.2.2.1
  case settled =>
    intro hnone
    apply List.ext_getElem?
    intro k
    rw [List.getElem?_map, List.getElem?_take]
    split_ifs with hk
    · have hget := List.getElem?_eq_getElem hk
      cases hr : g.received[k] with
      | none =>
        rw [hr] at hget
        obtain ⟨t, slot, stamp, ht⟩ := h.pending k hget
        exact absurd ht (hnone t slot stamp k)
      | some msg =>
        rw [hr] at hget
        rw [hget, h.matched k msg hget]
        rfl
    · rw [List.getElem?_eq_none (Nat.not_lt.mp hk)]
      rfl
  case exclusive => exact fun t u i ht hu => h.exclusive hc hu ht
  case writes =>
    intro t msg slot stamp k ht
    obtain ⟨rfl, -, -, -, hnone⟩ : Local cap g (.write msg slot stamp k) := ht ▸ h.locals t
    exact hnone
  case reads =>
    intro t slot stamp k ht
    obtain ⟨rfl, -, -, -, hmsg⟩ : Local cap g (.read slot stamp k) := ht ▸ h.locals t
    exact ⟨hmsg, fun u j hu he => h.sender_reader_ne hc hu (hread t _ _ k ht) he.symm⟩
  case full =>
    intro t n ht
    have hl : Local cap g (.full n) := ht ▸ h.locals t
    exact hl
  case empty =>
    intro t n ht
    have hl : Local cap g (.empty n) := ht ▸ h.locals t
    exact hl
  case dropped => exact h.droppedFrom
  case discarded =>
    intro hd
    obtain ⟨-, hlen, -⟩ := h.finished hd
    have hfrom := h.droppedFrom
    rwa [List.take_of_length_le] at hfrom
    rw [List.length_drop]
    omega
  case asserts =>
    intro t ht
    have hl : Local cap g .failed := ht ▸ h.locals t
    exact hl

theorem inv_withCapacity (hc : 0 < cap) (sender receiver : ι → Bool) :
    Inv cap (withCapacity M sender receiver).shared (withCapacity M sender receiver).pc := by
  have hstamp : ∀ k < cap, stampOf cap k = k := by
    intro k hk
    rw [stampOf, Nat.div_eq_of_lt hk, Nat.zero_mul, Nat.zero_add, Nat.mod_eq_of_lt hk]
  constructor
  case buffered =>
    refine ⟨(hstamp 0 hc).symm, .inl (hstamp 0 hc).symm, le_rfl, Nat.zero_le _, fun i hi => ?_⟩
    refine ⟨i, Nat.mod_eq_of_lt hi, .inl ⟨?_, Nat.zero_le _, ?_, fun _ => rfl⟩⟩
    · rw [hstamp i hi]
      exact Nat.mod_eq_of_lt hi
    · exact Nat.lt_of_lt_of_le hi (Nat.le_add_left ..)
  case locals => exact fun _ => trivial
  case receivers => rfl
  case droppedFrom => rfl
  all_goals exact nofun

variable [DecidableEq ι]

theorem Inv.next {s s' : Config ι (Shared M) (Thread M)} (h : Inv cap s.shared s.pc) (hc : 0 < cap)
    (hn : (program M cap).Next s s') : Inv cap s'.shared s'.pc := by
  cases hn with
  | run t wake g th pc hstep hwoken =>
    obtain ⟨rfl, hstep⟩ := hstep
    cases hwoken
    rcases hstep with ⟨ho, hcall⟩ | hmem
    · exact h.called ho hcall
    · exact h.stepped hc hmem
  | spurious t f hs => cases hs

/-- In every interleaving of any number of senders and receivers. -/
theorem mpmcArray_delivers (hc : 0 < cap) (sender receiver : ι → Bool)
    {s : Config ι (Shared M) (Thread M)}
    (h : (program M cap).Reachable (withCapacity M sender receiver) s) : Delivers cap s := by
  have hinv : Inv cap s.shared s.pc := by
    apply h.invariant (I := fun s => Inv cap s.shared s.pc)
    · exact inv_withCapacity hc sender receiver
    · exact fun s s' hs hn => hs.next hc hn
  exact hinv.delivers hc

end Claims

def ends : Config (Fin 2) (Shared ℕ) (Thread ℕ) := withCapacity ℕ ![true, false] ![false, true]

theorem ends_next {s : Config (Fin 2) (Shared ℕ) (Thread ℕ)} (h : (program ℕ 1).Reachable ends s)
    (t : Fin 2) {w : Shared ℕ} {th : Thread ℕ}
    (hs : (Outside (s.pc t).place ∧ Called s.shared (s.pc t) (w, th)) ∨
      (w, th) ∈ steps 1 s.shared (s.pc t)) :
    (program ℕ 1).Reachable ends ⟨w, Function.update s.pc t th⟩ :=
  h.next (.run t .nobody w th _ ⟨rfl, hs⟩ .nobody)

/-- The receiver finds the slot empty, and reserved, until the sender has written it. -/
theorem mpmcArray_delivers_two : ∃ s s' : Config (Fin 2) (Shared ℕ) (Thread ℕ),
    (s.pc 0).place = .write 7 0 1 0 ∧ (s.pc 1).place = .recvTail 0 ∧ Delivers 1 s ∧
      (s'.pc 0).place = .sent ∧ (s'.pc 1).place = .received 7 ∧ s'.shared.received = [some 7] ∧
      Delivers 1 s' := by
  have h₀ := ends_next .refl 0 (.inl ⟨trivial, .send 7 rfl⟩)
  have h₁ := ends_next h₀ 1 (.inl ⟨trivial, .recv rfl⟩)
  have h₂ := ends_next h₁ 0 (.inr (.head _))
  have h₃ := ends_next h₂ 1 (.inr (.head _))
  have h₄ := ends_next h₃ 0 (.inr (.head _))
  have h₅ := ends_next h₄ 1 (.inr (.head _))
  have h₆ := ends_next h₅ 0 (.inr (.tail _ (.head _)))
  have h₇ := ends_next h₆ 1 (.inr (.head _))
  have h₈ := ends_next h₇ 1 (.inr (.head _))
  have h₉ := ends_next h₈ 0 (.inr (.head _))
  have h₁₀ := ends_next h₉ 0 (.inr (.head _))
  have h₁₁ := ends_next h₁₀ 1 (.inr (.head _))
  have h₁₂ := ends_next h₁₁ 1 (.inr (.tail _ (.head _)))
  have h₁₃ := ends_next h₁₂ 1 (.inr (.head _))
  have h₁₄ := ends_next h₁₃ 1 (.inr (.head _))
  refine ⟨_, _, ?_, ?_, mpmcArray_delivers Nat.one_pos _ _ h₆, ?_, ?_, ?_,
    mpmcArray_delivers Nat.one_pos _ _ h₁₄⟩
  all_goals rfl

end RustStd.MpmcArray
