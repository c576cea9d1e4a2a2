import RustStd.Sync.RwLockFutexSafety

/-!
# No lost wake-up in the futex RwLock

Whoever sleeps is owed a wake-up by a bit of the word or by a thread that is on
its way to wake it, and while the lock is free some thread is on duty for the
bits that are set. A writer could be overlooked only if so many notifications
came between its load of the counter and its `futex_wait` that the counter has
come round.
-/

set_option autoImplicit false

namespace RustStd.RwLockFutex
open RustStd.Threads Word

/-- The thread is about to wake a writer, or it is a writer that has waited and
sets the bit again when it locks. -/
def Signals : Place → Prop
  | .notify _ => True
  | .wakeWriter _ => True
  | .spinWrite b _ => b = true
  | .writeContended b _ => b = true
  | .examine => True
  | .recheck _ => True
  | .writeWait _ => True
  | _ => False

/-- The thread will see to the bits of a free lock, or lock it. -/
def OnDuty (readers writers : Bool) : Place → Prop
  | .wakeWriterOrReaders s =>
    s = pack ⟨0, readers, writers⟩ ∨ writers = true ∧ s = writersWaiting
  | .wakeBoth s => readers = true ∧ s = pack ⟨0, readers, writers⟩
  | .wakeOnlyReaders s => readers = true ∧ writers = false ∧ s = readersWaiting
  | .notify both => readers = true ∧ writers = false ∧ both = true
  | .wakeWriter both => readers = true ∧ writers = false ∧ both = true
  | .spinWrite _ _ => readers = true ∧ writers = false
  | .writeContended _ _ => readers = true ∧ writers = false
  | .examine => readers = true ∧ writers = false
  | .recheck _ => readers = true ∧ writers = false
  | _ => False

variable {ι : Type}

structure Owed (x : Word) (n : ℕ) (pc : ι → Thread) : Prop where
  reader : ∀ t, (pc t).place = .readAsleep → x.readers = true ∨ ∃ u, (pc u).place = .wakeReaders
  writer : ∀ t, (pc t).place = .writeAsleep → x.writers = true ∨ ∃ u, Signals (pc u).place
  pending : ∀ t, (pc t).place = .writeWait n → x.writers = true ∨ ∃ u b, (pc u).place = .notify b
  unlocked : x.count = 0 → (x.readers = true ∨ x.writers = true) →
    ∃ u, OnDuty x.readers x.writers (pc u).place

variable {x y : Word} {n m : ℕ} {pc pc' : ι → Thread} {t : ι} {th : Thread}

theorem Moves.signals {p q : Place} (h : Moves x n p q) (hs : Signals p) :
    Signals q ∨ q = .writeAsleep := by
  cases h <;> first | exact .inl hs | exact hs.elim | exact .inl trivial | exact .inl rfl | exact .inr rfl

theorem pack_zero (hc : x.count = 0) : x = ⟨0, x.readers, x.writers⟩ := by
  rw [← hc]

theorem Moves.onDuty {p q : Place} (h : Moves x n p q) (hc : x.count = 0)
    (hf : x.readers = true ∨ x.writers = true) (hd : OnDuty x.readers x.writers p) :
    OnDuty x.readers x.writers q := by
  obtain ⟨c, r, w⟩ := x
  obtain rfl : c = 0 := hc
  cases h with
  | spinWrite => exact hd
  | spunWrite => exact hd
  | writeAgain => exact hd
  | writersSet => exact hd
  | examine => exact hd
  | recheck => exact hd
  | writeWait m hl => exact absurd rfl hl
  | nobodyReads s h =>
    have hr : r = true := by
      by_contra hr
      rw [Bool.not_eq_true] at hr
      subst hr
      obtain rfl : w = true := hf.resolve_left Bool.false_ne_true
      have hs : s = writersWaiting := hd.elim (fun hs => hs.trans writers_pack.symm) And.right
      exact h.elim (fun h => h hs) fun h => h (writers_pack.symm.trans hs.symm)
    refine ⟨hr, ?_⟩
    split_ifs with hs
    · rfl
    · exact hd.resolve_right fun hw => hs hw.2
  | gotLocked s h => exact absurd hd.2.symm h
  | notBoth s h =>
    obtain ⟨rfl, rfl⟩ := hd
    have hw : w = false := by
      by_contra hw
      rw [Bool.not_eq_false] at hw
      rw [hw] at h
      exact h both_pack.symm
    rw [hw]
    exact ⟨rfl, rfl, readers_pack.symm⟩
  | nothingToDo s h =>
    obtain ⟨rfl, rfl, rfl⟩ := hd
    exact h.elim (fun h => h rfl) fun h => h readers_pack.symm
  | _ => exact hd.elim

theorem owed_new : Owed ⟨0, false, false⟩ 0 fun _ : ι => ⟨0, false, .outside⟩ := by
  refine ⟨nofun, nofun, nofun, nofun⟩

theorem Owed.rouse (h : Owed x n pc) (hr : ∀ t, Rouse (pc t) (pc' t)) : Owed x n pc' := by
  -- A thread that is not asleep keeps its place.
  have hkeep : ∀ u, (pc u).place ≠ .readAsleep → (pc u).place ≠ .writeAsleep → pc' u = pc u := by
    intro u hra hwa
    rcases hr u with hu | ⟨hu, -⟩ | ⟨hu, -⟩
    · exact hu
    · exact absurd hu hra
    · exact absurd hu hwa
  have hback : ∀ u p, (pc' u).place = p → p ≠ .spinRead true 100 → p ≠ .spinWrite true 100 →
      (pc u).place = p := by
    rintro u p rfl hsr hsw
    rcases hr u with hu | ⟨-, hu⟩ | ⟨-, hu⟩ <;> rw [hu] at hsr hsw ⊢
    · exact absurd rfl hsr
    · exact absurd rfl hsw
  have hex : ∀ Q : Place → Prop, ¬ Q .readAsleep → ¬ Q .writeAsleep → (∃ u, Q (pc u).place) →
      ∃ u, Q (pc' u).place := by
    rintro Q hra hwa ⟨u, hu⟩
    refine ⟨u, ?_⟩
    rwa [hkeep u (fun hp => hra (hp ▸ hu)) (fun hp => hwa (hp ▸ hu))]
  constructor
  case reader =>
    intro t ht
    refine (h.reader t (hback t _ ht nofun nofun)).imp_right ?_
    exact hex (· = .wakeReaders) nofun nofun
  case writer =>
    intro t ht
    exact (h.writer t (hback t _ ht nofun nofun)).imp_right (hex Signals id id)
  case pending =>
    intro t ht
    refine (h.pending t (hback t _ ht nofun nofun)).imp_right ?_
    exact hex (fun p => ∃ b, p = .notify b) nofun nofun
  case unlocked => exact fun hc hf => hex (OnDuty x.readers x.writers) id id (h.unlocked hc hf)

variable [DecidableEq ι]

theorem Owed.update (h : Owed x n pc)
    (hreaders : x.readers = true → y.readers = true ∨ th.place = .wakeReaders)
    (hwriters : x.writers = true → y.writers = true ∨ ∃ b, th.place = .notify b)
    (hwake : (pc t).place ≠ .wakeReaders) (hnotify : ∀ b, (pc t).place ≠ .notify b)
    (hsignals : Signals (pc t).place → Signals th.place ∨ y.writers = true ∨ th.place = .writeAsleep)
    (hr : th.place = .readAsleep → y.readers = true)
    (hw : th.place = .writeAsleep → (pc t).place = .writeWait n)
    (hwait : th.place = .writeWait n → y.writers = true)
    (hduty : y.count = 0 → (y.readers = true ∨ y.writers = true) →
      ∃ u, OnDuty y.readers y.writers (Function.update pc t th u).place) :
    Owed y n (Function.update pc t th) := by
  have hself : ∀ Q : Place → Prop, Q th.place → ∃ u, Q (Function.update pc t th u).place :=
    fun Q hQ => ⟨t, by rwa [Function.update_self]⟩
  have hothers : ∀ Q : Place → Prop, ¬ Q (pc t).place → (∃ u, Q (pc u).place) →
      ∃ u, Q (Function.update pc t th u).place :=
    fun Q hQ => exists_update (Q := fun th : Thread => Q th.place) fun hp => absurd hp hQ
  have hnotified : (∃ u b, (pc u).place = .notify b) →
      ∃ u b, (Function.update pc t th u).place = .notify b :=
    hothers (fun p => ∃ b, p = .notify b) fun ⟨b, hb⟩ => hnotify b hb
  have hbit : x.writers = true →
      y.writers = true ∨ ∃ u b, (Function.update pc t th u).place = .notify b := fun hx =>
    (hwriters hx).imp_right (hself fun p => ∃ b, p = .notify b)
  have hsignal : ∀ u b, (Function.update pc t th u).place = .notify b →
      Signals (Function.update pc t th u).place := by
    intro u b hu
    rw [hu]
    trivial
  constructor
  case reader =>
    intro u hu
    rcases update_cases pc t th u with ⟨rfl, he⟩ | ⟨-, he⟩ <;> rw [he] at hu
    · exact .inl (hr hu)
    · rcases h.reader u hu with hx | hex
      · exact (hreaders hx).imp_right (hself (· = .wakeReaders))
      · exact .inr (hothers (· = .wakeReaders) hwake hex)
  case writer =>
    have hbits : x.writers = true → y.writers = true ∨
        ∃ u, Signals (Function.update pc t th u).place := fun hx =>
      (hbit hx).imp_right fun ⟨u, b, hu⟩ => ⟨u, hsignal u b hu⟩
    have hasleep : th.place = .writeAsleep → y.writers = true ∨
        ∃ u, Signals (Function.update pc t th u).place := by
      intro hu
      rcases h.pending t (hw hu) with hx | hex
      · exact hbits hx
      · obtain ⟨v, b, hv⟩ := hnotified hex
        exact .inr ⟨v, hsignal v b hv⟩
    intro u hu
    rcases update_cases pc t th u with ⟨rfl, he⟩ | ⟨-, he⟩ <;> rw [he] at hu
    · exact hasleep hu
    · rcases h.writer u hu with hx | ⟨v, hv⟩
      · exact hbits hx
      · rcases update_cases pc t th v with ⟨rfl, he⟩ | ⟨-, he⟩
        · rcases hsignals hv with hs | hy | ha
          · exact .inr (hself Signals hs)
          · exact .inl hy
          · exact hasleep ha
        · exact .inr ⟨v, by rwa [he]⟩
  case pending =>
    intro u hu
    rcases update_cases pc t th u with ⟨rfl, he⟩ | ⟨-, he⟩ <;> rw [he] at hu
    · exact .inl (hwait hu)
    · rcases h.pending u hu with hx | hex
      · exact hbit hx
      · exact .inr (hnotified hex)
  case unlocked => exact hduty

theorem Owed.keep (h : Owed x n pc) (hwake : (pc t).place ≠ .wakeReaders)
    (hnotify : ∀ b, (pc t).place ≠ .notify b)
    (hsignals : Signals (pc t).place → Signals th.place ∨ th.place = .writeAsleep)
    (hr : th.place = .readAsleep → x.readers = true)
    (hw : th.place = .writeAsleep → (pc t).place = .writeWait n)
    (hwait : th.place = .writeWait n → x.writers = true)
    (hduty : x.count = 0 → (x.readers = true ∨ x.writers = true) →
      OnDuty x.readers x.writers (pc t).place → OnDuty x.readers x.writers th.place) :
    Owed x n (Function.update pc t th) := by
  refine h.update .inl .inl hwake hnotify (fun hs => (hsignals hs).imp_right .inr) hr hw hwait ?_
  intro hc hf
  exact exists_update (Q := fun th : Thread => OnDuty x.readers x.writers th.place) (hduty hc hf)
    (h.unlocked hc hf)

omit [DecidableEq ι] in
theorem Moves.silent {p q : Place} (h : Moves x n p q) :
    p ≠ .wakeReaders ∧ ∀ b, p ≠ .notify b := by
  cases h <;> exact ⟨nofun, nofun⟩

theorem Moves.readAsleep {p : Place} (h : Moves x n p .readAsleep) (hle : x.count ≤ mask)
    (hl : Local n p) : x.readers = true := by
  cases h with
  | readSleep e he =>
    rw [← hasReadersWaiting_pack hle, he]
    exact hl

theorem Moves.writeWait' {p : Place} {k : ℕ} (h : Moves x n p (.writeWait k)) :
    x.writers = true := by
  cases h with
  | writeWait _ _ hw => exact hw

theorem Owed.move (h : Owed x n pc) {p : Place} (hm : Moves x n (pc t).place p)
    (hle : x.count ≤ mask) (hl : Local n (pc t).place)
    (hw : p = .writeAsleep → (pc t).place = .writeWait n) :
    Owed x n (Function.update pc t ((pc t).go p)) := by
  refine h.keep hm.silent.1 hm.silent.2 hm.signals ?_ hw ?_ hm.onDuty
  · rintro rfl
    exact hm.readAsleep hle hl
  · rintro rfl
    exact hm.writeWait'

theorem Owed.locked (h : Owed x n pc) (hr : x.readers = true → y.readers = true)
    (hw : x.writers = true → y.writers = true) (hc : y.count ≠ 0)
    (hwake : (pc t).place ≠ .wakeReaders) (hnotify : ∀ b, (pc t).place ≠ .notify b)
    (hsignals : Signals (pc t).place → Signals th.place ∨ y.writers = true)
    (hread : th.place = .readAsleep → y.readers = true) (hwrite : th.place ≠ .writeAsleep)
    (hwait : ∀ m, th.place ≠ .writeWait m) : Owed y n (Function.update pc t th) := by
  refine h.update (fun hx => .inl (hr hx)) (fun hx => .inl (hw hx)) hwake hnotify
    (fun hs => (hsignals hs).imp_right .inl) hread (fun ha => absurd ha hwrite)
    (fun ha => absurd ha (hwait n)) fun hy => absurd hy hc

theorem Owed.setReaders (h : Owed x n pc) {b : Bool} {s : ℕ} (hp : (pc t).place = .readContended b s)
    (hs : x.readers = false) (hw : x.writers = true ∨ x.count = mask) :
    Owed { x with readers := true } n (Function.update pc t ((pc t).go
      (.readWait (pack { x with readers := true })))) := by
  refine h.update (fun _ => .inl rfl) .inl (by rw [hp]; nofun) (by rw [hp]; nofun)
    (by rw [hp]; nofun) nofun nofun nofun ?_
  -- Whoever was on duty for the writers finds the new bit.
  intro hc _
  have hw : x.writers = true := hw.resolve_right (by rw [show x.count = 0 from hc]; decide)
  obtain ⟨u, hu⟩ := h.unlocked hc (.inr hw)
  rw [hs, hw] at hu
  have hne : u ≠ t := by
    rintro rfl
    rw [hp] at hu
    exact hu
  refine ⟨u, ?_⟩
  rw [Function.update_of_ne hne]
  change OnDuty true x.writers _
  rw [hw]
  cases hpu : (pc u).place with
  | wakeWriterOrReaders s =>
    rw [hpu] at hu
    exact .inr ⟨rfl, hu.elim (fun hs => hs.trans writers_pack.symm) And.right⟩
  | _ =>
    rw [hpu] at hu
    first | exact hu.elim | exact absurd hu.1 Bool.false_ne_true

theorem Owed.unlock (h : Owed x n pc) (hr : y.readers = x.readers) (hw : y.writers = x.writers)
    (hp : (pc t).place = .outside)
    (hth : th.place = .outside ∨ y.count = 0 ∧ th.place = .wakeWriterOrReaders y.pack)
    (hnone : y.count = 0 → th.place = .outside → y.readers = false ∧ y.writers = false) :
    Owed y n (Function.update pc t th) := by
  have hplace : ∀ Q : Place → Prop, ¬ Q .outside → (∀ s, ¬ Q (.wakeWriterOrReaders s)) →
      ¬ Q th.place := by
    intro Q ho hq
    rcases hth with hth | ⟨-, hth⟩ <;> rw [hth]
    · exact ho
    · exact hq _
  refine h.update (fun hx => .inl (hr.trans hx)) (fun hx => .inl (hw.trans hx)) (by rw [hp]; nofun)
    (by rw [hp]; nofun) (by rw [hp]; exact False.elim) ?_ ?_ ?_ ?_
  · exact fun ha => absurd ha (hplace (· = .readAsleep) nofun nofun)
  · exact fun ha => absurd ha (hplace (· = .writeAsleep) nofun nofun)
  · exact fun ha => absurd ha (hplace (· = .writeWait n) nofun nofun)
  · intro hc hf
    rcases hth with hth | ⟨-, hth⟩
    · obtain ⟨hr, hw⟩ := hnone hc hth
      rw [hr, hw] at hf
      exact absurd hf (by decide)
    · refine ⟨t, ?_⟩
      rw [Function.update_self, hth]
      exact .inl (congrArg pack (pack_zero hc))

theorem Owed.take (h : Owed x n pc) (hp : ¬ Signals (pc t).place)
    (hwake : (pc t).place ≠ .wakeReaders)
    (hreaders : x.readers = true → y.readers = true ∨ th.place = .wakeReaders)
    (hwriters : x.writers = true → y.writers = true ∨ ∃ b, th.place = .notify b)
    (hth : th.place = .wakeReaders ∨ ∃ b, th.place = .notify b)
    (hduty : y.readers = true ∨ y.writers = true → OnDuty y.readers y.writers th.place) :
    Owed y n (Function.update pc t th) := by
  have hplace : ∀ q : Place, (q ≠ .wakeReaders ∧ ∀ b, q ≠ .notify b) → th.place ≠ q := by
    rintro q ⟨hk, hn⟩ rfl
    exact hth.elim hk fun ⟨b, hb⟩ => hn b hb
  refine h.update hreaders hwriters hwake ?_ (fun hs => absurd hs hp) ?_ ?_ ?_ ?_
  · intro b hb
    rw [hb] at hp
    exact hp trivial
  · exact fun ha => absurd ha (hplace _ ⟨nofun, nofun⟩)
  · exact fun ha => absurd ha (hplace _ ⟨nofun, nofun⟩)
  · exact fun ha => absurd ha (hplace _ ⟨nofun, nofun⟩)
  · intro _ hf
    refine ⟨t, ?_⟩
    rw [Function.update_self]
    exact hduty hf

theorem Owed.notify (h : Owed x n pc) (hl : ∀ u, Local n (pc u).place) {b : Bool}
    (hp : (pc t).place = .notify b) :
    Owed x (n+1) (Function.update pc t ((pc t).go (.wakeWriter b))) := by
  constructor
  case reader =>
    intro u hu
    rcases update_cases pc t ((pc t).go (.wakeWriter b)) u with ⟨-, he⟩ | ⟨-, he⟩ <;> rw [he] at hu
    · cases hu
    · refine (h.reader u hu).imp_right (exists_update (Q := fun th : Thread => th.place = _) ?_)
      intro hk
      cases hk.symm.trans hp
  case writer =>
    intro u hu
    refine .inr ⟨t, ?_⟩
    rw [Function.update_self]
    trivial
  case pending =>
    -- Nobody has seen the notification that comes only now.
    intro u hu
    rcases update_cases pc t ((pc t).go (.wakeWriter b)) u with ⟨-, he⟩ | ⟨-, he⟩ <;> rw [he] at hu
    · cases hu
    · have hlu := hl u
      rw [hu] at hlu
      exact absurd hlu (Nat.not_succ_le_self n)
  case unlocked =>
    intro hc hf
    refine exists_update (Q := fun th : Thread => OnDuty _ _ th.place) ?_ (h.unlocked hc hf)
    rw [hp]
    exact id

theorem Owed.wakeReaders (h : Owed x n pc) (hp : (pc t).place = .wakeReaders)
    (hnone : ∀ u, (pc u).place ≠ .readAsleep) :
    Owed x n (Function.update pc t ((pc t).go .outside)) := by
  have hex : ∀ Q : Place → Prop, ¬ Q .wakeReaders → (∃ u, Q (pc u).place) →
      ∃ u, Q (Function.update pc t ((pc t).go .outside) u).place := by
    intro Q hQ
    apply exists_update (Q := fun th : Thread => Q th.place)
    rw [hp]
    exact fun h => absurd h hQ
  have hback : ∀ u p, p ≠ .outside →
      (Function.update pc t ((pc t).go .outside) u).place = p → (pc u).place = p := by
    rintro u p hne hu
    rcases update_cases pc t ((pc t).go .outside) u with ⟨-, he⟩ | ⟨-, he⟩ <;> rw [he] at hu
    · exact absurd hu.symm hne
    · exact hu
  constructor
  case reader => exact fun u hu => absurd (hback u .readAsleep nofun hu) (hnone u)
  case writer => exact fun u hu => (h.writer u (hback u _ nofun hu)).imp_right (hex Signals id)
  case pending =>
    intro u hu
    refine (h.pending u (hback u _ nofun hu)).imp_right ?_
    exact hex (fun p => ∃ b, p = .notify b) nofun
  case unlocked => exact fun hc hf => hex (OnDuty _ _) id (h.unlocked hc hf)

/-- A writer has been woken, or none sleeps. -/
theorem Owed.wakeWriter (h : Owed x n pc) {b woke : Bool} (hp : (pc t).place = .wakeWriter b)
    (hw : (∃ u, u ≠ t ∧ (pc u).place = .spinWrite true 100) ∨
      woke = false ∧ ∀ u, (pc u).place ≠ .writeAsleep) :
    Owed x n (Function.update pc t ((pc t).go (afterWakeWriter b woke))) := by
  have hafter : ∀ p, p ≠ .outside → p ≠ .wakeOnlyReaders readersWaiting →
      afterWakeWriter b woke ≠ p := by
    rintro p ho hr rfl
    unfold afterWakeWriter at ho hr
    split_ifs at ho hr
    · exact hr rfl
    · exact ho rfl
  have hex : ∀ Q : Place → Prop, ¬ Q (.wakeWriter b) → (∃ u, Q (pc u).place) →
      ∃ u, Q (Function.update pc t ((pc t).go (afterWakeWriter b woke)) u).place := by
    intro Q hQ
    apply exists_update (Q := fun th : Thread => Q th.place)
    rw [hp]
    exact fun h => absurd h hQ
  have hback : ∀ u p, p ≠ .outside → p ≠ .wakeOnlyReaders readersWaiting →
      (Function.update pc t ((pc t).go (afterWakeWriter b woke)) u).place = p →
      (pc u).place = p := by
    rintro u p ho hr hu
    rcases update_cases pc t ((pc t).go (afterWakeWriter b woke)) u with ⟨-, he⟩ | ⟨-, he⟩ <;>
      rw [he] at hu
    · exact absurd hu (hafter p ho hr)
    · exact hu
  constructor
  case reader =>
    intro u hu
    refine (h.reader u (hback u _ nofun nofun hu)).imp_right ?_
    exact hex (· = .wakeReaders) nofun
  case writer =>
    intro u hu
    rcases hw with ⟨v, hne, hv⟩ | ⟨-, hnone⟩
    · refine .inr ⟨v, ?_⟩
      rw [Function.update_of_ne hne, hv]
      rfl
    · exact absurd (hback u .writeAsleep nofun nofun hu) (hnone u)
  case pending =>
    intro u hu
    refine (h.pending u (hback u _ nofun nofun hu)).imp_right ?_
    exact hex (fun p => ∃ b, p = .notify b) nofun
  case unlocked =>
    intro hc hf
    by_cases hd : OnDuty x.readers x.writers (.wakeWriter b)
    · rcases hw with ⟨v, hne, hv⟩ | ⟨hwoke, -⟩
      · refine ⟨v, ?_⟩
        rw [Function.update_of_ne hne, hv]
        exact ⟨hd.1, hd.2.1⟩
      · refine ⟨t, ?_⟩
        rw [Function.update_self]
        obtain ⟨hr, hnw, rfl⟩ := hd
        rw [hwoke]
        exact ⟨hr, hnw, rfl⟩
    · exact hex _ hd (h.unlocked hc hf)

theorem sleepsOn_iff : (program.sleepsOn th = some .state ↔ th.place = .readAsleep) ∧
    (program.sleepsOn th = some .writerNotify ↔ th.place = .writeAsleep) := by
  obtain ⟨reads, writes, place⟩ := th
  cases place <;> simp [program]

theorem woken_place : (th.place = .readAsleep → (program.woken th).place = .spinRead true 100) ∧
    (th.place = .writeAsleep → (program.woken th).place = .spinWrite true 100) := by
  obtain ⟨reads, writes, place⟩ := th
  cases place <;> simp [program, Thread.go]

theorem Owed.moved (h : Owed x n pc) {p : Place} (hm : Moves x n (pc t).place p)
    (hle : x.count ≤ mask) (hl : Local n (pc t).place)
    (htimely : ∀ k, (pc t).place = .writeWait k → p = .writeAsleep → n < k+2^32) :
    Owed x n (Function.update pc t ((pc t).go p)) := by
  refine h.move hm hle hl ?_
  rintro rfl
  generalize hp : (pc t).place = p at hm hl
  cases hm with
  | writeSleep k he =>
    have hlt := htimely k hp rfl
    have hseen : k ≤ n := hl
    obtain rfl : n = k := by omega
    rfl

theorem Owed.lockRead (h : Owed x n pc) (hp : LocksRead (pc t).place) :
    Owed { x with count := x.count+1 } n (Function.update pc t (pc t).lockRead) := by
  refine h.locked id id (Nat.succ_ne_zero _) ?_ ?_ ?_ nofun nofun nofun
  · intro he
    rw [he] at hp
    exact hp
  · intro b he
    rw [he] at hp
    exact hp
  · cases hq : (pc t).place <;> rw [hq] at hp <;> first | exact hp.elim | exact False.elim

theorem Owed.lockWrite (h : Owed x n pc) {writers : Bool} (hp : LocksWrite writers (pc t).place)
    (hw : x.writers = true → writers = true) :
    Owed ⟨mask, x.readers, writers⟩ n (Function.update pc t (pc t).lockWrite) := by
  have hmask : mask ≠ 0 := by decide
  refine h.locked id hw hmask ?_ ?_ ?_ nofun nofun nofun
  · intro he
    rw [he] at hp
    exact hp
  · intro b he
    rw [he] at hp
    exact hp
  · cases hq : (pc t).place <;> rw [hq] at hp <;>
      first | exact hp.elim | exact False.elim | exact fun hb => .inr (hp hb)

theorem Owed.readUnlock {reads : ℕ} {writes : Bool} (h : Owed { y with count := y.count+1 } n pc)
    (hp : (pc t).place = .outside) (hl : Local n (afterReadUnlock y)) :
    Owed y n (Function.update pc t ⟨reads, writes, afterReadUnlock y⟩) := by
  have hafter : afterReadUnlock y ≠ .failed := by
    intro he
    rw [he] at hl
    exact hl
  refine h.unlock rfl rfl hp ?_ ?_
  · dsimp only
    unfold afterReadUnlock at hafter ⊢
    split_ifs at hafter ⊢ with hf hw
    · exact absurd rfl hafter
    · rw [Bool.and_eq_true, beq_iff_eq] at hw
      exact .inr ⟨hw.1, rfl⟩
    · exact .inl rfl
  · intro hc ho
    dsimp only at ho
    unfold afterReadUnlock at ho
    split_ifs at ho with hf hw
    rw [hc] at hw
    cases hyr : y.readers <;> cases hyw : y.writers <;> simp_all

theorem Owed.writeUnlock {reads : ℕ} {writes : Bool} (h : Owed x n pc)
    (hp : (pc t).place = .outside) :
    Owed { x with count := 0 } n
      (Function.update pc t ⟨reads, writes, afterWriteUnlock { x with count := 0 }⟩) := by
  refine h.unlock rfl rfl hp ?_ ?_
  · dsimp only
    unfold afterWriteUnlock
    split_ifs
    · exact .inr ⟨rfl, rfl⟩
    · exact .inl rfl
  · intro _ ho
    dsimp only at ho
    unfold afterWriteUnlock at ho
    split_ifs at ho with hf
    rw [Bool.or_eq_true, not_or, Bool.not_eq_true, Bool.not_eq_true] at hf
    exact hf.symm

theorem Owed.downgrade {reads : ℕ} {writes : Bool} (h : Owed x n pc)
    (hp : (pc t).place = .outside) :
    Owed { x with count := 1 } n (Function.update pc t ⟨reads, writes, afterDowngrade x⟩) := by
  have hafter : ∀ q, q ≠ .outside → q ≠ .unsetReaders → afterDowngrade x ≠ q := by
    rintro q ho hu rfl
    unfold afterDowngrade at ho hu
    split_ifs at ho hu
    · exact hu rfl
    · exact ho rfl
  refine h.locked id id (Nat.succ_ne_zero 0) (by rw [hp]; nofun) (by rw [hp]; nofun)
    (by rw [hp]; exact False.elim) ?_ ?_ ?_
  · exact fun ha => absurd ha (hafter _ nofun nofun)
  · exact hafter _ nofun nofun
  · exact fun k => hafter _ nofun nofun

theorem Owed.unsetReaders (h : Owed x n pc) (hp : (pc t).place = .unsetReaders)
    (hc : x.count = 1) :
    Owed { x with readers := false } n (Function.update pc t ((pc t).go .wakeReaders)) := by
  refine h.update (fun _ => .inr rfl) .inl (by rw [hp]; nofun) (by rw [hp]; nofun)
    (by rw [hp]; exact False.elim) nofun nofun nofun ?_
  intro hzero
  exact absurd (hc.symm.trans hzero) (by decide)

theorem Owed.did [Fintype ι] (h : Owed x n pc) (hs : Safe x n pc) {wake : Wake Address}
    (hd : Did x n (pc t) y m wake th)
    (hall : wake = .all .state → ∀ u, (pc u).place ≠ .readAsleep)
    (hone : ∀ found, wake = .one .writerNotify found →
      (∃ u, u ≠ t ∧ (pc u).place = .spinWrite true 100) ∨
        found = false ∧ ∀ u, (pc u).place ≠ .writeAsleep)
    (htimely : ∀ k, (pc t).place = .writeWait k → th.place = .writeAsleep → n < k+2^32) :
    Owed y m (Function.update pc t th) := by
  cases hd with
  | move hm => exact h.moved hm hs.held.le (hs.locals t) htimely
  | lockRead hp hc hr => exact h.lockRead hp
  | setReaders hp hr hw => exact h.setReaders hp hr hw
  | lockWrite writers hp hc hw => exact h.lockWrite hp hw
  | setWriters hp hc =>
    exact h.locked id (fun _ => rfl) hc (by rw [hp]; nofun) (by rw [hp]; nofun)
      (fun _ => .inr rfl) nofun nofun nofun
  | readUnlock hp hr hx =>
    have hl := (hs.did (.readUnlock hp hr hx)).locals t
    rw [Function.update_self] at hl
    subst hx
    exact h.readUnlock hp hl
  | writeUnlock hp hw hy =>
    subst hy
    exact h.writeUnlock hp
  | downgrade hp hw => exact h.downgrade hp
  | unsetReaders hp => exact h.unsetReaders hp (hs.downgrading t hp).2.1
  | wakeReaders hp => exact h.wakeReaders hp (hall rfl)
  | takeWriters hp hx =>
    subst hx
    exact h.take (by rw [hp]; exact id) (by rw [hp]; nofun) nofun (fun _ => .inr ⟨_, rfl⟩)
      (.inr ⟨_, rfl⟩) fun hf => absurd hf (by simp)
  | takeBoth hp hx =>
    subst hx
    exact h.take (by rw [hp]; exact id) (by rw [hp]; nofun) .inl (fun _ => .inr ⟨_, rfl⟩)
      (.inr ⟨_, rfl⟩) fun _ => ⟨rfl, rfl, rfl⟩
  | takeReaders hp hx =>
    subst hx
    exact h.take (by rw [hp]; exact id) (by rw [hp]; nofun) (fun _ => .inr rfl) nofun
      (.inl rfl) fun hf => absurd hf (by simp)
  | notify hp => exact h.notify hs.locals hp
  | wakeWriter hp hf =>
    refine h.wakeWriter hp ((hone _ rfl).imp_right fun ⟨hfound, hnone⟩ => ⟨?_, hnone⟩)
    rw [Bool.eq_false_iff]
    intro hwoke
    exact absurd (hf hwoke) (by rw [hfound]; decide)

/-- A writer that goes to sleep has missed fewer notifications than the counter
has values. -/
def Timely (s s' : Config ι Shared Thread) : Prop :=
  ∀ t seen, (s.pc t).place = .writeWait seen → (s'.pc t).place = .writeAsleep →
    s.shared.notified < seen+2^32

theorem Owed.stepped [Fintype ι] (h : Owed x n pc) (hs : Safe x n pc)
    (hst : Stepped x n pc y m pc') (htimely : ∀ t k, (pc t).place = .writeWait k →
      (pc' t).place = .writeAsleep → n < k+2^32) : Owed y m pc' := by
  cases hst with
  | spurious _ hr => exact h.rouse hr
  | run t wake th pc₁ y m hd hw =>
    have hr := rouse_of_woken hw
    refine (h.rouse hr).did (hs.rouse hr) hd ?_ ?_ ?_
    · rintro rfl u hu
      cases hw with
      | all f pc₁ ha hn =>
        by_cases hsleep : program.sleepsOn (pc u) = some .state
        · have hp := sleepsOn_iff.1.mp hsleep
          rw [ha u hsleep] at hu
          cases hu.symm.trans (woken_place.1 hp)
        · rw [hn u hsleep] at hu
          exact hsleep (sleepsOn_iff.1.mpr hu)
    · rintro found rfl
      cases hw with
      | noSleeper f hn => exact .inr ⟨rfl, fun u hu => hn u (sleepsOn_iff.2.mpr hu)⟩
      | one f u hu =>
        have hp := sleepsOn_iff.2.mp hu
        have hplace : (Function.update pc u (program.woken (pc u)) u).place = .spinWrite true 100 := by
          rw [Function.update_self]
          exact woken_place.2 hp
        refine .inl ⟨u, ?_, hplace⟩
        rintro rfl
        cases hd with
        | wakeWriter hq => cases hplace.symm.trans hq
    · intro k hk ha
      refine htimely t k ?_ (by rwa [Function.update_self])
      rcases hr t with he | ⟨-, he⟩ | ⟨-, he⟩ <;> rw [he] at hk
      · exact hk
      · cases hk
      · cases hk

theorem owed_of_reachable [Fintype ι] {s : Config ι Shared Thread}
    (h : program.ReachableVia Timely (new ι) s) :
    ∃ x n, s.shared = ⟨pack x, n⟩ ∧ Safe x n s.pc ∧ Owed x n s.pc := by
  apply h.invariant
  · exact ⟨⟨0, false, false⟩, 0, rfl, safe_new, owed_new⟩
  · rintro ⟨g, pc⟩ s' - ⟨x, n, rfl, hs, ho⟩ hn ht
    obtain ⟨y, m, pc', rfl, hst⟩ := hs.next hn
    exact ⟨y, m, rfl, hs.stepped hst, ho.stepped hs hst ht⟩

def Asleep (th : Thread) : Prop := th.place = .readAsleep ∨ th.place = .writeAsleep

/-- The lock is free, some thread sleeps, and the others are outside all lock
operations. -/
structure Stuck (s : Config ι Shared Thread) : Prop where
  free : isUnlocked s.shared.state = true
  sleeper : ∃ t, Asleep (s.pc t)
  others : ∀ t, Asleep (s.pc t) ∨ (s.pc t).place = .outside

omit [DecidableEq ι] in
theorem Owed.not_stuck (h : Owed x n pc) (hx : x.count ≤ mask) : ¬ Stuck ⟨⟨x.pack, n⟩, pc⟩ := by
  rintro ⟨hfree, ⟨t, ht⟩, hothers⟩
  have hc : x.count = 0 := by
    rw [isUnlocked_pack hx, beq_iff_eq] at hfree
    exact hfree
  have hnone : ∀ Q : Place → Prop, ¬ Q .readAsleep → ¬ Q .writeAsleep → ¬ Q .outside →
      ¬ ∃ u, Q (pc u).place := by
    rintro Q hr hw ho ⟨u, hu⟩
    rcases hothers u with (hp | hp) | hp <;> dsimp only at hp <;> rw [hp] at hu
    · exact hr hu
    · exact hw hu
    · exact ho hu
  have hbits : x.readers = true ∨ x.writers = true := by
    rcases ht with ht | ht
    · exact .inl ((h.reader t ht).resolve_right (hnone (· = .wakeReaders) nofun nofun nofun))
    · exact .inr ((h.writer t ht).resolve_right (hnone Signals id id id))
  exact hnone (OnDuty _ _) id id id (h.unlocked hc hbits)

/-- In every interleaving the lock is safe, and no wake-up is lost in one whose
steps are timely. -/
theorem rwLock_safe_and_live [Fintype ι] (s : Config ι Shared Thread) :
    (program.Reachable (new ι) s → Sound s) ∧
      (program.ReachableVia Timely (new ι) s → Sound s ∧ ¬ Stuck s) := by
  refine ⟨fun h => (isSafe h).sound, fun h => ⟨(isSafe h.reachable).sound, ?_⟩⟩
  obtain ⟨x, n, hg, hs, ho⟩ := owed_of_reachable h
  obtain ⟨g, pc⟩ := s
  dsimp only at hg
  subst hg
  exact ho.not_stuck hs.held.le

def idle (place : Place) : Thread := ⟨0, false, place⟩

def reader : Thread := ⟨1, false, .outside⟩

def writer : Thread := ⟨0, true, .outside⟩

theorem next_timely {init s : Config ι Shared Thread} (h : program.ReachableVia Timely init s)
    (t : ι) (g : Shared) (th : Thread) (hs : (g, .nobody, th) ∈ steps s.shared (s.pc t))
    (hfew : s.shared.notified < 2^32) :
    program.ReachableVia Timely init ⟨g, Function.update s.pc t th⟩ :=
  h.tail ⟨.run t .nobody g th s.pc hs .nobody, fun _ _ _ _ => hfew.trans_le (Nat.le_add_left ..)⟩

/-- Two readers hold the lock while a writer goes to sleep, and the last one wakes it. -/
theorem rwLock_safe_and_live_writer : ∃ s s' : Config (Fin 3) Shared Thread,
    s.pc 0 = reader ∧ (s.pc 1).place = .writeAsleep ∧ s.pc 2 = reader ∧ Sound s ∧ ¬ Stuck s ∧
      s'.shared.notified = 1 ∧ s'.pc 1 = writer ∧ Sound s' ∧ ¬ Stuck s' := by
  have h₀ : program.ReachableVia Timely (new (Fin 3)) (new (Fin 3)) := .refl
  -- the first compare-exchange of the writer fails without a reason
  have h₁ := next_timely h₀ 1 ⟨0, 0⟩ (idle (.spinWrite false 100)) (by decide) (by decide)
  have h₂ := next_timely h₁ 1 ⟨0, 0⟩ (idle (.writeContended false 0)) (by decide) (by decide)
  have h₃ := next_timely h₂ 0 ⟨0, 0⟩ (idle (.read 0)) (by decide) (by decide)
  have h₄ := next_timely h₃ 0 ⟨1, 0⟩ reader (by decide) (by decide)
  have h₅ := next_timely h₄ 2 ⟨1, 0⟩ (idle (.read 1)) (by decide) (by decide)
  have h₆ := next_timely h₅ 2 ⟨2, 0⟩ reader (by decide) (by decide)
  have h₇ := next_timely h₆ 1 ⟨2, 0⟩ (idle (.writeContended false 2)) (by decide) (by decide)
  have h₈ := next_timely h₇ 1 ⟨2^31+2, 0⟩ (idle .examine) (by decide) (by decide)
  have h₉ := next_timely h₈ 1 ⟨2^31+2, 0⟩ (idle (.recheck 0)) (by decide) (by decide)
  have h₁₀ := next_timely h₉ 1 ⟨2^31+2, 0⟩ (idle (.writeWait 0)) (by decide) (by decide)
  have h₁₁ := next_timely h₁₀ 1 ⟨2^31+2, 0⟩ (idle .writeAsleep) (by decide) (by decide)
  have h₁₂ := next_timely h₁₁ 0 ⟨2^31+1, 0⟩ (idle .outside) (by decide) (by decide)
  have h₁₃ := next_timely h₁₂ 2 ⟨2^31, 0⟩ (idle (.wakeWriterOrReaders (2^31))) (by decide) (by decide)
  have h₁₄ := next_timely h₁₃ 2 ⟨0, 0⟩ (idle (.notify false)) (by decide) (by decide)
  have h₁₅ := next_timely h₁₄ 2 ⟨0, 1⟩ (idle (.wakeWriter false)) (by decide) (by decide)
  have hwake : (⟨0, 1⟩, .one .writerNotify true, idle .outside) ∈
      steps ⟨0, 1⟩ (idle (.wakeWriter false)) := by decide
  have h₁₆ := Relation.ReflTransGen.tail h₁₅ ⟨.run 2 _ _ _ _ hwake (.one Address.writerNotify 1 rfl),
    fun _ _ _ _ => show 1 < _ by omega⟩
  have h₁₇ := next_timely h₁₆ 1 ⟨0, 1⟩ (idle (.writeContended true 0)) (by decide) (by decide)
  have h₁₈ := next_timely h₁₇ 1 ⟨mask+writersWaiting, 1⟩ writer (by decide) (by decide)
  have hasleep := (rwLock_safe_and_live _).2 h₁₁
  exact ⟨_, _, rfl, rfl, rfl, hasleep.1, hasleep.2, rfl, rfl, (rwLock_safe_and_live _).2 h₁₈⟩

section Overlooked

variable {init : Config (Fin 3) Shared Thread} {g w : Shared} {a x b y c z : Thread}

theorem step_a (h : program.Reachable init ⟨g, ![a, b, c]⟩) (hs : (w, .nobody, x) ∈ steps g a) :
    program.Reachable init ⟨w, ![x, b, c]⟩ := by
  have := h.next (.run 0 .nobody w x _ hs .nobody)
  rwa [show Function.update ![a, b, c] 0 x = ![x, b, c] by ext j; fin_cases j <;> rfl] at this

theorem step_b (h : program.Reachable init ⟨g, ![a, b, c]⟩) (hs : (w, .nobody, y) ∈ steps g b) :
    program.Reachable init ⟨w, ![a, y, c]⟩ := by
  have := h.next (.run 1 .nobody w y _ hs .nobody)
  rwa [show Function.update ![a, b, c] 1 y = ![a, y, c] by ext j; fin_cases j <;> rfl] at this

theorem step_c (h : program.Reachable init ⟨g, ![a, b, c]⟩) (hs : (w, .nobody, z) ∈ steps g c) :
    program.Reachable init ⟨w, ![a, b, z]⟩ := by
  have := h.next (.run 2 .nobody w z _ hs .nobody)
  rwa [show Function.update ![a, b, c] 2 z = ![a, b, z] by ext j; fin_cases j <;> rfl] at this

theorem isUnlocked_mask : isUnlocked mask = false := by decide

theorem hasWritersWaiting_mask : hasWritersWaiting mask = false := by decide

theorem spin_c {k n : ℕ} (h : program.Reachable init ⟨⟨mask, n⟩, ![a, b, idle (.spinWrite false k)]⟩) :
    program.Reachable init ⟨⟨mask, n⟩, ![a, b, idle (.writeContended false mask)]⟩ := by
  induction k with
  | zero =>
    refine step_c h ?_
    change _ ∈ spinWrite _ _ _ _
    unfold spinWrite
    simp only [isUnlocked_mask, hasWritersWaiting_mask, Bool.false_or]
    exact List.mem_singleton_self _
  | succ k ih =>
    refine ih (step_c h ?_)
    change _ ∈ spinWrite _ _ _ _
    unfold spinWrite
    simp only [isUnlocked_mask, hasWritersWaiting_mask, Bool.false_or]
    exact List.mem_singleton_self _

theorem spinWrite_waiting {s n : ℕ} (h : hasWritersWaiting s = true) (b : Bool) (k : ℕ) :
    (⟨s, n⟩, .nobody, idle (.writeContended b s)) ∈ steps ⟨s, n⟩ (idle (.spinWrite b k)) := by
  change _ ∈ spinWrite _ _ _ _
  unfold spinWrite
  simp only [h, Bool.or_true, Bool.true_or]
  exact List.mem_singleton_self _

theorem recheck_free (n m : ℕ) :
    (⟨0, n⟩, .nobody, idle (.writeContended true 0)) ∈ steps ⟨0, n⟩ (idle (.recheck m)) := by
  have hfree : isUnlocked 0 = true := by decide
  simp only [steps, idle, hfree, Bool.true_or]
  exact List.mem_singleton_self _

theorem lock_b {n : ℕ} (h : program.Reachable init ⟨⟨0, n⟩, ![a, idle .outside, idle .outside]⟩) :
    program.Reachable init ⟨⟨mask+writersWaiting, n⟩, ![a, writer, idle .examine]⟩ := by
  have h₁ := step_b (y := writer) (w := ⟨mask, n⟩) h (.tail _ (.tail _ (.head _)))
  have h₂ := step_c (z := idle (.spinWrite false 100)) (w := ⟨mask, n⟩) h₁ (.tail _ (.tail _ (.head _)))
  exact step_c (spin_c h₂) (.head _)

theorem wake_nobody {n : ℕ} {pc : Fin 3 → Thread} (t : Fin 3)
    (hp : pc t = idle (.wakeWriter false)) (hsleep : ∀ u, program.sleepsOn (pc u) = none)
    (h : program.Reachable init ⟨⟨0, n⟩, pc⟩) :
    program.Reachable init ⟨⟨0, n⟩, Function.update pc t (idle .outside)⟩ := by
  have hnone : ∀ u, program.sleepsOn (pc u) ≠ some .writerNotify := by
    intro u hu
    cases (hsleep u).symm.trans hu
  have hwake : (⟨0, n⟩, .one .writerNotify false, idle .outside) ∈ steps ⟨0, n⟩ (pc t) := by
    rw [hp]
    exact .tail _ (.tail _ (.head _))
  exact h.next (.run t _ _ _ _ hwake (.noSleeper _ hnone))

theorem wake_b {n : ℕ} (ha : program.sleepsOn a = none) (hc : program.sleepsOn c = none)
    (h : program.Reachable init ⟨⟨0, n⟩, ![a, idle (.wakeWriter false), c]⟩) :
    program.Reachable init ⟨⟨0, n⟩, ![a, idle .outside, c]⟩ := by
  have := wake_nobody 1 rfl (Fin.forall_fin_succ.mpr ⟨ha, Fin.forall_fin_two.mpr ⟨rfl, hc⟩⟩) h
  rwa [show Function.update ![a, idle (.wakeWriter false), c] 1 (idle .outside) =
    ![a, idle .outside, c] by ext j; fin_cases j <;> rfl] at this

theorem wake_c {n : ℕ} (ha : program.sleepsOn a = none) (hb : program.sleepsOn b = none)
    (h : program.Reachable init ⟨⟨0, n⟩, ![a, b, idle (.wakeWriter false)]⟩) :
    program.Reachable init ⟨⟨0, n⟩, ![a, b, idle .outside]⟩ := by
  have := wake_nobody 2 rfl (Fin.forall_fin_succ.mpr ⟨ha, Fin.forall_fin_two.mpr ⟨hb, rfl⟩⟩) h
  rwa [show Function.update ![a, b, idle (.wakeWriter false)] 2 (idle .outside) =
    ![a, b, idle .outside] by ext j; fin_cases j <;> rfl] at this

theorem unlock_writer (n : ℕ) : (⟨writersWaiting, n⟩, .nobody,
    idle (.wakeWriterOrReaders writersWaiting)) ∈ steps ⟨mask+writersWaiting, n⟩ writer := by
  have hsub : fetchSub (mask+writersWaiting) writeLocked = writersWaiting := by decide
  have hfree : isUnlocked writersWaiting = true := by decide
  have hset : hasWritersWaiting writersWaiting = true := by decide
  apply List.mem_append_right
  apply List.mem_append_left
  unfold writeUnlock
  simp only [hsub, hfree, hset, Bool.true_or]
  exact List.mem_singleton_self _

theorem unlock_both {n : ℕ} (ha : program.sleepsOn a = none)
    (h : program.Reachable init ⟨⟨mask+writersWaiting, n⟩, ![a, writer, idle .examine]⟩) :
    program.Reachable init ⟨⟨0, n+2⟩, ![a, idle .outside, idle .outside]⟩ := by
  have h₁ := step_b h (unlock_writer n)
  have h₂ := step_b (w := ⟨0, n⟩) (y := idle (.notify false)) h₁ (.head _)
  have h₃ := step_b (w := ⟨0, n+1⟩) (y := idle (.wakeWriter false)) h₂ (.head _)
  have h₄ := step_c (w := ⟨0, n+1⟩) (z := idle (.recheck (n+1))) (wake_b ha rfl h₃) (.head _)
  have h₅ := step_c h₄ (recheck_free (n+1) (n+1))
  have h₆ := step_c (w := ⟨mask+writersWaiting, n+1⟩) (z := writer) h₅ (.head _)
  have h₇ := step_c h₆ (unlock_writer (n+1))
  have h₈ := step_c (w := ⟨0, n+1⟩) (z := idle (.notify false)) h₇ (.head _)
  have h₉ := step_c (w := ⟨0, n+2⟩) (z := idle (.wakeWriter false)) h₈ (.head _)
  exact wake_c ha rfl h₉

theorem rounds {n : ℕ} (ha : program.sleepsOn a = none)
    (h : program.Reachable init ⟨⟨0, n⟩, ![a, idle .outside, idle .outside]⟩) (k : ℕ) :
    program.Reachable init ⟨⟨0, n+2*k⟩, ![a, idle .outside, idle .outside]⟩ := by
  induction k with
  | zero => exact h
  | succ k ih => exact unlock_both ha (lock_b ih)

theorem reachable_stuck : ∃ s, program.Reachable (new (Fin 3)) s ∧ Stuck s := by
  have h₀ : program.Reachable (new (Fin 3)) ⟨⟨0, 0⟩, ![idle .outside, idle .outside, idle .outside]⟩ := by
    rw [show ![idle .outside, idle .outside, idle .outside] = (new (Fin 3)).pc by
      ext j; fin_cases j <;> rfl]
    exact .refl
  have h₁ := step_a (x := idle (.spinWrite false 100)) (w := ⟨mask+writersWaiting, 0⟩) (lock_b h₀)
    (.tail _ (.tail _ (.head _)))
  have h₂ := step_a h₁ (spinWrite_waiting (by decide) false 100)
  have h₃ := step_a (x := idle .examine) (w := ⟨mask+writersWaiting, 0⟩) h₂ (.head _)
  have h₄ := step_a (x := idle (.recheck 0)) (w := ⟨mask+writersWaiting, 0⟩) h₃ (.head _)
  have h₅ := step_a (x := idle (.writeWait 0)) (w := ⟨mask+writersWaiting, 0⟩) h₄ (.head _)
  have h₆ := rounds rfl (unlock_both rfl h₅) (2^31-1)
  have h₇ := step_a (x := idle .writeAsleep) (w := ⟨0, 2^32⟩) h₆ (.head _)
  refine ⟨_, h₇, by decide, ⟨0, .inr rfl⟩, fun t => ?_⟩
  fin_cases t
  · exact .inl (.inr rfl)
  · exact .inr rfl
  · exact .inr rfl

theorem rwLock_counterexample :
    ¬ ∀ s, program.Reachable (new (Fin 3)) s → Sound s ∧ ¬ Stuck s := by
  obtain ⟨s, h, hs⟩ := reachable_stuck
  exact fun hall => (hall s h).2 hs

end Overlooked

end RustStd.RwLockFutex
