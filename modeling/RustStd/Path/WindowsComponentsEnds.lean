import RustStd.Path.WindowsComponentsBack

/-!
# Both ends of a Windows path

The components from the front and the reversed ones from the back make up the
list of `next`, except for a path such as `C:.\x`. There the front leaves the
`.` out, since it follows a prefix, and the back has it in the text of the
prefix.
-/

set_option autoImplicit false

namespace RustStd.WindowsPath
open RustStd.Loop RustStd.DoubleEnded
open RustStd.Path (State)
open Components

/-- A drive, and directly behind it a `.` of its own. -/
def driveDot : List UInt8 → Bool
  | drive :: 58 :: path => isValidDriveLetter drive && startsWithDot isSepByte path
  | _ => false

/-- Calls at both ends yield the components that `next` alone yields, and the prefix
is the first bytes of the path. -/
def EndsAgree (path : List UInt8) : Prop :=
  ∃ c l, components path = some c ∧ componentList path = some l ∧
    (∀ ds, ∃ fs bs c', drive next nextBack ds c = some (fs, bs, c') ∧ Splits l ds.length fs bs) ∧
    ∀ raw parsed, Component.atPrefix raw parsed ∈ l → parsePrefix path = some (some parsed) ∧
      (Component.atPrefix raw parsed).asOsStr = path.take parsed.len

section Disk

variable {path : List UInt8} {d : UInt8}

theorem parseVerbatim_ne_disk {parser : PrefixParserSlice} :
    parseVerbatim parser ≠ some (some (.disk d)) := by
  intro h
  unfold parseVerbatim at h
  simp only [Option.bind_eq_bind, Option.bind_eq_some_iff] at h
  obtain ⟨r, -, h⟩ := h
  cases r with
  | some parser' =>
    simp only [Option.bind_eq_some_iff] at h
    obtain ⟨_, -, h⟩ := h
    cases h
  | none =>
    simp only [Option.bind_eq_some_iff] at h
    obtain ⟨rest, -, h⟩ := h
    cases hd : parseDriveExact rest <;> rw [hd] at h <;> cases h

theorem parseDeviceOrUnc_ne_disk {parser : PrefixParserSlice} :
    parseDeviceOrUnc parser ≠ some (some (.disk d)) := by
  intro h
  unfold parseDeviceOrUnc at h
  simp only [Option.bind_eq_bind, Option.bind_eq_some_iff] at h
  obtain ⟨r, -, h⟩ := h
  cases r with
  | some parser' =>
    simp only [Option.bind_eq_some_iff] at h
    obtain ⟨_, -, h⟩ := h
    cases h
  | none =>
    simp only [Option.bind_eq_some_iff] at h
    obtain ⟨_, -, h⟩ := h
    split_ifs at h <;> cases h

theorem parsePrefix_disk (h : parsePrefix path = some (some (.disk d))) :
    ∃ drive rest, path = drive :: 58 :: rest ∧ isValidDriveLetter drive = true := by
  unfold parsePrefix at h
  simp only [Option.bind_eq_bind, Option.bind_eq_some_iff] at h
  obtain ⟨r, -, h⟩ := h
  cases r with
  | some parser =>
    simp only [Option.bind_eq_some_iff] at h
    obtain ⟨r, -, h⟩ := h
    cases r with
    | none => exact absurd h parseDeviceOrUnc_ne_disk
    | some verbatim =>
      simp only [Option.bind_eq_some_iff] at h
      obtain ⟨bytes, -, h⟩ := h
      split_ifs at h with hslash
      · exact absurd h parseDeviceOrUnc_ne_disk
      · exact absurd h parseVerbatim_ne_disk
  | none =>
    have hd : parseDrive path = some d := by
      obtain ⟨_, hd, he⟩ := Option.map_eq_some_iff.mp (Option.some.inj h)
      cases he
      exact hd
    unfold parseDrive at hd
    split at hd
    · rename_i drive rest
      split_ifs at hd with hvalid
      exact ⟨drive, rest, rfl, hvalid⟩
    · cases hd

theorem parsePrefix_of_drive {drive : UInt8} {rest : List UInt8}
    (h : isValidDriveLetter drive = true) :
    parsePrefix (drive :: 58 :: rest) = some (some (.disk (toAsciiUppercase drive))) := by
  have hne : (if drive = 47 then 92 else drive) ≠ 92 := by
    rintro he
    split_ifs at he with hslash
    · rw [hslash] at h
      exact absurd h (by decide)
    · rw [he] at h
      exact absurd h (by decide)
  have hstrip : (PrefixParserSlice.new (drive :: 58 :: rest)).stripPrefix [92, 92] = some none := by
    simp [PrefixParserSlice.stripPrefix, PrefixParserSlice.new, sliceFrom, Ne.symm hne]
  simp [parsePrefix, hstrip, parseDrive, h]

end Disk

section Plain

variable {path : List UInt8}

def started (path : List UInt8) (pre : Option Prefix) : Components :=
  { path, pre, hasPhysicalRoot := (path.drop ((pre.map Prefix.len).getD 0)).head?.any isSepByte,
    front := .atPrefix, back := .body }

theorem components_eq {pre : Option Prefix} (h : parsePrefix path = some pre)
    (hle : ∀ p, pre = some p → p.len ≤ path.length) : components path = some (started path pre) := by
  rw [components, h]
  cases pre with
  | none => simp [hasPhysicalRoot, started]
  | some p => simp [hasPhysicalRoot, started, sliceFrom_eq (hle p rfl)]

theorem fits_started {pre : Option Prefix} (hle : ∀ p, pre = some p → p.len ≤ path.length) :
    (started path pre).prefixRemaining ≤ path.length := by
  cases pre with
  | none => exact Nat.zero_le _
  | some p => exact hle p rfl

theorem sound_started {pre : Option Prefix} (h : parsePrefix path = some pre)
    (hle : ∀ p, pre = some p → p.len ≤ path.length) (hdot : driveDot path = false) :
    Sound (started path pre) where
  fits := fits_started hle
  rooted := rfl
  noDot := by
    intro hp hroot
    obtain ⟨p, rfl⟩ := Option.ne_none_iff_exists'.mp hp
    have hdrive : p.isDrive = true := by
      simp only [hasRoot, started, Bool.or_eq_false_iff, Option.any_some] at hroot
      simpa [Prefix.hasImplicitRoot] using hroot.2
    cases p with
    | disk d =>
      obtain ⟨drive, path, rfl, hvalid⟩ := parsePrefix_disk h
      rw [driveDot, hvalid, Bool.true_and] at hdot
      exact hdot
    | verbatim x => cases hdrive
    | verbatimUNC x y => cases hdrive
    | verbatimDisk d => cases hdrive
    | deviceNS x => cases hdrive
    | unc x y => cases hdrive

theorem length_filterMap_pieces {sep : UInt8 → Bool} {verbatim : Bool} (l : List UInt8) :
    (bodyComps sep verbatim l).length ≤ l.length+1 :=
  (List.length_filterMap_le _ _).trans (Pieces.length_pieces_le _ _ _ _)

theorem headComps_length (c : Components) : (headComps c).length ≤ c.prefixLen := by
  unfold headComps
  split_ifs with hf
  · cases hp : c.pre with
    | none => exact Nat.zero_le _
    | some p =>
      rw [prefixLen_of_some hp]
      exact p.len_pos
  · exact Nat.zero_le _

theorem atPrefix_notMem_body {c : Components} {l : List UInt8} {raw : List UInt8}
    {parsed : Prefix} : Component.atPrefix raw parsed ∉ body c l := by
  intro h
  obtain ⟨comp, -, hc⟩ := List.mem_filterMap.mp h
  unfold parseSingleComponent at hc
  split at hc
  · split_ifs at hc
    cases hc
  · cases hc
  · cases hc
  · cases hc

theorem atPrefix_ne_startComp {c : Components} {raw : List UInt8} {parsed : Prefix} :
    Component.atPrefix raw parsed ∉ (startComp c).toList := by
  intro h
  have he : startComp c = some (.atPrefix raw parsed) := by simpa using h
  unfold startComp at he
  split at he
  · cases he
  · split at he
    · split at he <;> cases he
    · split at he <;> cases he

theorem endsAgree_of_plain (hdot : driveDot path = false) : EndsAgree path := by
  obtain ⟨pre, hpre, hle⟩ := parsePrefix_spec path
  have hs := sound_started hpre hle hdot
  have hc := components_eq hpre hle
  set c := started path pre with hcdef
  have hleft := Left.whole c hs (Nat.zero_le 1) rfl
  refine ⟨c, _, hc, ?_, fun ds => drive_splits holds_left ds c _ hleft, ?_⟩
  · rw [componentList, hc]
    apply collect_of_holds holds_left hleft
    have hhead := headComps_length c
    have hstart : (startComp c).toList.length ≤ 1 := by cases startComp c <;> simp
    have hbody : (body c ((rest c).drop (startLen c))).length ≤ (rest c).length+1 := by
      refine (length_filterMap_pieces _).trans ?_
      rw [List.length_drop]
      omega
    have hfits : c.prefixLen ≤ path.length := hs.fits
    have hrest : (rest c).length = path.length-c.prefixLen := rest_length c
    simp only [List.length_append]
    omega
  · intro raw parsed hmem
    have hhead : Component.atPrefix raw parsed ∈ headComps c := by
      rcases List.mem_append.mp hmem with h | h
      · rcases List.mem_append.mp h with h | h
        · exact h
        · exact absurd h atPrefix_ne_startComp
      · exact absurd h atPrefix_notMem_body
    rw [headComps, if_pos (by rfl)] at hhead
    obtain ⟨p, hp, he⟩ : ∃ p, pre = some p ∧
        Component.atPrefix (path.take c.prefixLen) p = .atPrefix raw parsed := by
      simpa [hcdef, started] using hhead
    obtain ⟨rfl, rfl⟩ := Component.atPrefix.inj he
    rw [hpre, hp, prefixLen_of_some (by exact hp)]
    exact ⟨rfl, rfl⟩

end Plain

section Dotted

variable {c : Components}

structure Dotted (c : Components) : Prop where
  front : c.front = .atPrefix
  disk : ∃ d, c.pre = some (.disk d)
  unrooted : c.hasPhysicalRoot = false
  dot : startsWithDot isSepByte (c.path.drop 2) = true
  /-- Once the back leaves the body, it has drive and `.` left. -/
  short : c.back ≠ .body → c.path.length = 3

/-- The text of a prefix found at the back is too long. -/
def DottedRound (r : Option Component × Components) : Prop :=
  (∀ raw parsed, r.1 = some (.atPrefix raw parsed) → raw.length = 3) ∧ Dotted r.2

theorem Dotted.long (h : Dotted c) : 3 ≤ c.path.length := by
  have := startsWithDot_ne_nil h.dot
  rw [List.length_drop] at this
  omega

theorem Dotted.prefixLen (h : Dotted c) : c.prefixLen = 2 := by
  obtain ⟨d, hd⟩ := h.disk
  exact prefixLen_of_some hd

theorem Dotted.lenBeforeBody (h : Dotted c) : c.lenBeforeBody = some 3 := by
  have hrem : c.prefixRemaining = 2 := by rw [prefixRemaining, if_pos h.front, h.prefixLen]
  have hsep : c.isSep = isSepByte := by
    obtain ⟨d, hd⟩ := h.disk
    funext b
    simp [isSep, prefixVerbatim, hd, Prefix.isVerbatim]
  have hroot : c.hasRoot = false := by
    obtain ⟨d, hd⟩ := h.disk
    simp [hasRoot, hd, h.unrooted, Prefix.hasImplicitRoot, Prefix.isDrive]
  have hcur : c.includeCurDir = some true := by
    rw [includeCurDir_eq (by rw [hrem]; exact (by decide : 2 ≤ 3).trans h.long), hroot, hsep, rest,
      hrem, h.dot]
    rfl
  simp [Components.lenBeforeBody, h.front, State.rank, h.unrooted, hcur, hrem]

theorem startsWithDot_take {sep : UInt8 → Bool} {l : List UInt8} {n : ℕ} (hn : 1 ≤ n)
    (h : startsWithDot sep l = true) : startsWithDot sep (l.take n) = true := by
  obtain ⟨k, rfl⟩ : ∃ k, n = k+1 := ⟨n-1, by omega⟩
  rcases l with _ | ⟨x, _ | ⟨y, l⟩⟩
  · exact h
  · simpa using h
  · by_cases hx : x = 46
    · cases k with
      | zero => simp [startsWithDot, hx]
      | succ k => simpa [startsWithDot, hx] using h
    · simp [startsWithDot, hx] at h

theorem Dotted.cutTo {m : ℕ} (h : Dotted c) (hb : c.back = .body) (hm : 3 ≤ m) :
    Dotted (cutTo c m) where
  front := h.front
  disk := h.disk
  unrooted := h.unrooted
  dot := by
    change startsWithDot isSepByte ((c.path.take m).drop 2) = true
    rw [List.drop_take]
    exact startsWithDot_take (by omega) h.dot
  short := fun hne => absurd hb hne

theorem parseNextComponentBack_plain {n : ℕ} {x : Option Component}
    (h : c.parseNextComponentBack = some (n, x)) (raw : List UInt8) (parsed : Prefix) :
    x ≠ some (.atPrefix raw parsed) := by
  have hparse : ∃ comp, x = parseSingleComponent c.prefixVerbatim comp := by
    unfold Components.parseNextComponentBack at h
    split_ifs at h
    simp only [Option.bind_eq_bind, Option.bind_eq_some_iff] at h
    obtain ⟨_, -, _, -, h⟩ := h
    split at h
    · cases h
      exact ⟨_, rfl⟩
    · simp only [Option.bind_eq_some_iff] at h
      obtain ⟨⟨_, comp⟩, -, h⟩ := h
      cases h
      exact ⟨comp, rfl⟩
  obtain ⟨comp, rfl⟩ := hparse
  unfold parseSingleComponent
  split
  · split_ifs <;> exact nofun
  · exact nofun
  · exact nofun
  · exact nofun

theorem nextBackStep_dotted (c : Components) (h : Dotted c) :
    ∃ r, c.nextBackStep = some r ∧ Round Dotted backMeasure DottedRound c r := by
  obtain ⟨d, hd⟩ := h.disk
  by_cases hn : c.finished
  · exact ⟨.inr (none, c), by rw [nextBackStep, if_pos hn], ⟨nofun, h⟩⟩
  rw [nextBackStep, if_neg hn]
  cases hb : c.back with
  | body =>
    simp only [h.lenBeforeBody, Option.bind_eq_bind, Option.bind_some]
    by_cases hlt : 3 < c.path.length
    · obtain ⟨m, x, hx, hle, hm, -, -⟩ := parseNextComponentBack_spec hb h.lenBeforeBody hlt
      simp only [if_pos hlt, hx, Option.bind_some, dropBack_eq hm.le]
      refine ⟨_, rfl, ?_⟩
      have hcut := h.cutTo hb hle
      cases x with
      | none =>
        refine ⟨hcut, ?_⟩
        simp only [backMeasure, List.length_take]
        omega
      | some x =>
        exact ⟨fun raw parsed he => absurd he (parseNextComponentBack_plain hx raw parsed), hcut⟩
    · rw [if_neg hlt]
      have hlong := h.long
      refine ⟨_, rfl, ⟨h.front, h.disk, h.unrooted, h.dot, fun _ => by dsimp only; omega⟩, ?_⟩
      simp [backMeasure, hb, State.rank]
  | startDir =>
    have hlen := h.short (by rw [hb]; decide)
    refine ⟨.inl { c with back := .atPrefix }, ?_, ?_, ?_⟩
    · simp [h.unrooted, hd, Prefix.hasImplicitRoot, Prefix.isDrive]
    · exact ⟨h.front, h.disk, h.unrooted, h.dot, fun _ => hlen⟩
    · simp [backMeasure, hb, State.rank]
  | atPrefix =>
    have hlen := h.short (by rw [hb]; decide)
    refine ⟨.inr (some (.atPrefix c.path (.disk d)), { c with back := .done }), ?_, ?_, ?_⟩
    · simp [h.prefixLen, hd]
    · rintro raw parsed ⟨⟩
      exact hlen
    · exact ⟨h.front, h.disk, h.unrooted, h.dot, fun _ => hlen⟩
  | done => exact absurd (by simp [finished, hb]) hn

theorem nextBack_dotted (h : Dotted c) : ∃ r, c.nextBack = some r ∧ DottedRound r := by
  have hfuel : backMeasure c < c.path.length+4 := by
    have : c.back.rank ≤ 3 := by cases c.back <;> decide
    unfold backMeasure
    omega
  exact loop_total Dotted backMeasure DottedRound nextBackStep_dotted (c.path.length+4) c h hfuel

theorem drive_back_dotted (n : ℕ) (h : Dotted c) {fs bs : List Component} {c' : Components}
    (hd : drive next nextBack (List.replicate n .back) c = some (fs, bs, c')) :
    fs = [] ∧ ∀ raw parsed, Component.atPrefix raw parsed ∈ bs → raw.length = 3 := by
  induction n generalizing c fs bs with
  | zero =>
    cases hd
    exact ⟨rfl, nofun⟩
  | succ n ih =>
    obtain ⟨⟨x, c₁⟩, hr, hx, hc⟩ := nextBack_dotted h
    rw [List.replicate_succ, drive, hr] at hd
    simp only [Option.bind_eq_bind, Option.bind_some, Option.bind_eq_some_iff] at hd
    obtain ⟨⟨fs₁, bs₁, c₂⟩, hd₁, he⟩ := hd
    cases he
    obtain ⟨hfs, hbs⟩ := ih hc hd₁
    refine ⟨hfs, ?_⟩
    intro raw parsed hmem
    rcases List.mem_append.mp hmem with hm | hm
    · exact hx raw parsed (by simpa using hm)
    · exact hbs raw parsed hm

theorem not_endsAgree_of_driveDot {path : List UInt8} (hdot : driveDot path = true) :
    ¬ EndsAgree path := by
  rintro ⟨c, l, hc, -, hends, hraw⟩
  obtain ⟨drive, rest', rfl, hvalid, hrest⟩ : ∃ drive rest', path = drive :: 58 :: rest' ∧
      isValidDriveLetter drive = true ∧ startsWithDot isSepByte rest' = true := by
    unfold driveDot at hdot
    split at hdot
    · rename_i drive rest'
      rw [Bool.and_eq_true] at hdot
      exact ⟨drive, rest', rfl, hdot⟩
    · cases hdot
  set path := drive :: 58 :: rest' with hpath
  have hpre : parsePrefix path = some (some (.disk (toAsciiUppercase drive))) :=
    parsePrefix_of_drive hvalid
  have hle : ∀ p, some (Prefix.disk (toAsciiUppercase drive)) = some p → p.len ≤ path.length := by
    rintro p ⟨⟩
    simp [hpath, Prefix.len]
  rw [components_eq hpre hle] at hc
  cases hc
  have hdotted : Dotted (started path (some (.disk (toAsciiUppercase drive)))) := by
    refine ⟨rfl, ⟨_, rfl⟩, ?_, hrest, fun hne => absurd rfl hne⟩
    cases rest' with
    | nil => rfl
    | cons x t =>
      have hx : x ≠ 47 ∧ x ≠ 92 := by
        by_cases hx : x = 46
        · rw [hx]
          decide
        · simp [startsWithDot, hx] at hrest
      simp [started, hpath, Prefix.len, isSepByte, hx.1, hx.2]
  set c := started path (some (.disk (toAsciiUppercase drive)))
  -- The front yields the prefix with its two bytes, so that is in the list.
  have hin : Component.atPrefix (path.take 2) (.disk (toAsciiUppercase drive)) ∈ l := by
    have hstep := nextStep_atPrefix (c := c) (fits_started hle) rfl rfl
    have hnext : c.next = some (some (.atPrefix (path.take 2) (.disk (toAsciiUppercase drive))),
        passPrefix c) := by
      rw [next, loop, hstep]
      rfl
    obtain ⟨fs, bs, c', hd, left, hl, -⟩ := hends [.front]
    rw [drive_front hnext (by rfl)] at hd
    cases hd
    rw [hl]
    simp
  -- The back yields the whole list too, and in it the prefix has three bytes.
  obtain ⟨fs, bs, c', hd, left, hl, hlen⟩ := hends (List.replicate l.length .back)
  obtain ⟨rfl, hbs⟩ := drive_back_dotted l.length hdotted hd
  have hnil : left = [] := List.eq_nil_of_length_eq_zero (by simpa using hlen)
  rw [hl, hnil] at hin
  have h3 := hbs _ _ (by simpa using hin)
  simp [hpath] at h3

end Dotted

/-- A prefix is a part of its path, and the two ends agree, exactly if no `.` follows
a drive. -/
theorem components_ends_iff (path : List UInt8) :
    (∃ pre, parsePrefix path = some pre ∧ ∀ p, pre = some p → p.len ≤ path.length) ∧
        EndsAgree path ↔ driveDot path = false := by
  constructor
  · rintro ⟨-, hends⟩
    by_contra hdot
    exact not_endsAgree_of_driveDot (by simpa using hdot) hends
  · intro hdot
    exact ⟨parsePrefix_spec path, endsAgree_of_plain hdot⟩

theorem components_drive_dot :
    ¬ EndsAgree [67, 58, 46, 92, 102, 111, 111] ∧
      componentList [67, 58, 46, 92, 102, 111, 111] =
        some [.atPrefix [67, 58] (.disk 67), .normal [102, 111, 111]] ∧
      ((components [67, 58, 46, 92, 102, 111, 111]).bind fun c =>
        (drive next nextBack [.back, .back] c).map fun r => r.2.1) =
        some [.normal [102, 111, 111], .atPrefix [67, 58, 46] (.disk 67)] :=
  ⟨not_endsAgree_of_driveDot (by decide), by decide, by decide⟩

end RustStd.WindowsPath
