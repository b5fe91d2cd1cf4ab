import Mathlib.Data.List.Forall2
import McuUtilities.Lib.CStrings

/-!
# Deleting logs by tag

`elog_delete_tag_history` goes through the records of the log database and deletes those whose line has
the given tag. The tag of a line comes after its colour and level marks and ends with a space. The
callback does not look at the length of the tag it finds, nor whether it finds one.
-/

namespace McuUtilities.FlashDB

/-! ## Log lines -/

inductive ElogLvl
  | assert | error | warn | info | debug | verbose
  deriving DecidableEq, Repr

/-- `CSI_START`: "\033[". -/
def csiStart : List UInt8 := [0x1b, 0x5b]

/-- `color_output_info`: "35;22m", "31;22m" and so on. -/
def colorOutputInfo : ElogLvl → List UInt8
  | .assert => [0x33, 0x35, 0x3b, 0x32, 0x32, 0x6d]
  | .error => [0x33, 0x31, 0x3b, 0x32, 0x32, 0x6d]
  | .warn => [0x33, 0x33, 0x3b, 0x32, 0x32, 0x6d]
  | .info => [0x33, 0x36, 0x3b, 0x32, 0x32, 0x6d]
  | .debug => [0x33, 0x32, 0x3b, 0x32, 0x32, 0x6d]
  | .verbose => [0x33, 0x34, 0x3b, 0x32, 0x32, 0x6d]

/-- `level_output_info`: "A/", "E/" and so on. -/
def levelOutputInfo : ElogLvl → List UInt8
  | .assert => [0x41, 0x2f]
  | .error => [0x45, 0x2f]
  | .warn => [0x57, 0x2f]
  | .info => [0x49, 0x2f]
  | .debug => [0x44, 0x2f]
  | .verbose => [0x56, 0x2f]

def elogFilterTagMaxLen : Nat := 30

/-- Where the tag of a line begins, and its length; nothing for the NULL of a line without one. -/
def elogFindTag (log : List UInt8) (lvl : ElogLvl) : Option (Nat × Nat) :=
  let tag := csiStart.length + (colorOutputInfo lvl).length + (levelOutputInfo lvl).length
  (memchr (log.drop tag) 0x20 elogFilterTagMaxLen).map fun tagLen => (tag, tagLen)

/-- How `elog_output` begins a line in colour: its marks, the tag filled up with spaces, a space. -/
def elogLine (lvl : ElogLvl) (tag rest : List UInt8) : List UInt8 :=
  csiStart ++ colorOutputInfo lvl ++ levelOutputInfo lvl ++ tag ++
    List.replicate (elogFilterTagMaxLen / 2 - tag.length) 0x20 ++ [0x20] ++ rest

/-! ## Records -/

inductive FdbTslStatus
  | unused | preWrite | write | userStatus1 | deleted | userStatus2
  deriving DecidableEq, Repr

/-- The number of status bits that are cleared on the flash. -/
def FdbTslStatus.index : FdbTslStatus → Nat
  | .unused => 0
  | .preWrite => 1
  | .write => 2
  | .userStatus1 => 3
  | .deleted => 4
  | .userStatus2 => 5

/-- A record: its status and the text it stores. -/
structure Tsl where
  status : FdbTslStatus
  log : List UInt8
  deriving DecidableEq, Repr

/-- Status bits are only ever cleared, so a status that was passed does not come back. -/
def fdbTslSetStatus (tsl : Tsl) (status : FdbTslStatus) : Tsl :=
  { tsl with status := if tsl.status.index < status.index then status else tsl.status }

/-- The buffer after as much of a stored text as fits was read into it. -/
def fdbBlobRead (buf saved : List UInt8) : List UInt8 :=
  saved.take buf.length ++ buf.drop saved.length

/-- The records after a visit of each; the callback says whether to stop. There is no result where the
callback has none. -/
def fdbTslIter (cb : Tsl → Option (Tsl × Bool)) : List Tsl → Option (List Tsl)
  | [] => some []
  | tsl :: rest =>
    match cb tsl with
    | none => none
    | some (tsl', true) => some (tsl' :: rest)
    | some (tsl', false) => (fdbTslIter cb rest).map (tsl' :: ·)

/-! ## Deletion -/

/-- `ELOG_LINE_BUF_SIZE - 4` -/
def elogAsyncPollGetLogBufSize : Nat := 1020

/-- `elog_saved_buf`, with the text of a record. -/
def elogSavedBuf (log : List UInt8) : List UInt8 :=
  fdbBlobRead (List.replicate elogAsyncPollGetLogBufSize 0) log

def tempBuffSize : Nat := 30

/-- No result stands for a `strncmp` with NULL and for a `strlen` past the end of the buffer. -/
def delTagCb (tempBuff : List UInt8) (tsl : Tsl) : Option (Tsl × Bool) :=
  if tsl.status ≠ .deleted then do
    let buf := elogSavedBuf tsl.log
    let (tag, _len) ← elogFindTag buf .assert
    let n ← strlen tempBuff
    return (if strncmpEq n tempBuff (buf.drop tag) then fdbTslSetStatus tsl .deleted else tsl, false)
  else
    return (tsl, false)

def elogDeleteTagHistory (tag : Option (List UInt8)) (db : List Tsl) : Option (UInt8 × List Tsl) :=
  match tag with
  | some tag => (fdbTslIter (delTagCb (strncpy tempBuffSize tag)) db).map fun db' => (1, db')
  | none => some (0, db)

/-! ## What deletion is for -/

/-- The tag of a stored line, as `elog_find_tag` delimits it. -/
def tagField (log : List UInt8) : Option (List UInt8) :=
  (elogFindTag (elogSavedBuf log) .assert).map fun t =>
    ((elogSavedBuf log).drop t.1).take t.2

/-- A tag that fits `temp_buff`. -/
structure IsTag (tag : List UInt8) : Prop where
  pos : 1 ≤ tag.length
  le : tag.length ≤ 29
  noNul : 0 ∉ tag
  noSpace : 0x20 ∉ tag

/-- What a deletion of `tag` may make of a record. -/
structure Deletes (tag : List UInt8) (tsl tsl' : Tsl) : Prop where
  log : tsl'.log = tsl.log
  deleted : tsl.status = .deleted → tsl'.status = .deleted
  live : tsl.status ≠ .deleted → (tsl'.status = .deleted ↔ tagField tsl.log = some tag)
  others : tagField tsl.log ≠ some tag → tsl'.status = tsl.status

/-- `elog_delete_tag_history(tag)` returns, having deleted the records with that tag and no others. -/
def DeletesExactly (tag : List UInt8) (db : List Tsl) : Prop :=
  ∃ db', elogDeleteTagHistory (some tag) db = some (1, db') ∧ List.Forall₂ (Deletes tag) db db'

/-- A record whose tag is found, and is the given one if it begins with it. Past the status
`userStatus2` nothing is deleted any more, so there it must be another one. -/
def Deletable (tag : List UInt8) (tsl : Tsl) : Prop :=
  tsl.status ≠ .deleted → ∃ field, tagField tsl.log = some field ∧
    (tag <+: field → (field = tag ↔ tsl.status ≠ .userStatus2))

variable {tag field : List UInt8} {tsl tsl' : Tsl} {db db' : List Tsl}

/-! ## Lines of the logger -/

/-- The marks of every level are as long as those of the level the callback asks for. -/
theorem length_marks (lvl : ElogLvl) :
    (csiStart ++ colorOutputInfo lvl ++ levelOutputInfo lvl).length = 10 := by
  cases lvl <;> rfl

theorem elogSavedBuf_append (xs ys : List UInt8) (h : xs.length ≤ elogAsyncPollGetLogBufSize) :
    ∃ zs, elogSavedBuf (xs ++ ys) = xs ++ zs := by
  rw [elogSavedBuf, fdbBlobRead, List.length_replicate, List.take_append, List.take_of_length_le h,
    List.append_assoc]
  exact ⟨_, rfl⟩

/-- The tag the logger writes is the one that is found, at every level. -/
theorem tagField_elogLine (htag : IsTag tag) (lvl : ElogLvl) (rest : List UInt8) :
    tagField (elogLine lvl tag rest) = some tag := by
  have hle := htag.le
  generalize hmarks : csiStart ++ colorOutputInfo lvl ++ levelOutputInfo lvl = marks
  have hlen : marks.length = 10 := hmarks ▸ length_marks lvl
  have hline : elogLine lvl tag rest = (marks ++ tag ++ [0x20]) ++
      (List.replicate (elogFilterTagMaxLen / 2 - tag.length) 0x20 ++ rest) := by
    rw [elogLine, hmarks, List.append_assoc _ _ [0x20], ← List.replicate_succ', List.replicate_succ]
    simp only [List.append_assoc, List.cons_append, List.nil_append]
  have hsize : (marks ++ tag ++ [0x20]).length ≤ elogAsyncPollGetLogBufSize := by
    rw [elogAsyncPollGetLogBufSize]
    simp only [List.length_append, List.length_singleton]
    omega
  obtain ⟨zs, hz⟩ := elogSavedBuf_append (marks ++ tag ++ [0x20])
    (List.replicate (elogFilterTagMaxLen / 2 - tag.length) 0x20 ++ rest) hsize
  have hdrop : (elogSavedBuf (elogLine lvl tag rest)).drop 10 = tag ++ 0x20 :: zs := by
    rw [hline, hz, List.append_assoc, List.append_assoc, ← hlen, List.drop_left]
    rfl
  rw [tagField]
  generalize elogSavedBuf (elogLine lvl tag rest) = buf at hdrop ⊢
  have hfind : elogFindTag buf .assert = some (10, tag.length) := by
    have hmax : tag.length < elogFilterTagMaxLen := Nat.lt_succ_of_le hle
    have hchr := memchr_append htag.noSpace hmax zs
    rw [← hdrop] at hchr
    exact congrArg (Option.map (10, ·)) hchr
  rw [hfind, Option.map_some, hdrop, List.take_left]

/-! ## One record -/

theorem IsTag.strncpy_eq (h : IsTag tag) :
    strncpy tempBuffSize tag = tag ++ List.replicate (tempBuffSize - tag.length) 0 :=
  strncpy_of_le h.noNul (Nat.le_succ_of_le h.le)

theorem IsTag.strlen_eq (h : IsTag tag) : strlen (strncpy tempBuffSize tag) = some tag.length := by
  have hle := h.le
  obtain ⟨k, hk⟩ : ∃ k, tempBuffSize - tag.length = k + 1 :=
    ⟨29 - tag.length, by rw [tempBuffSize]; omega⟩
  rw [h.strncpy_eq, hk, List.replicate_succ]
  exact strlen_append h.noNul _

/-- The comparison of the callback asks whether the given tag begins the field. -/
theorem IsTag.strncmpEq_iff (h : IsTag tag) {start len : Nat} {log : List UInt8} {lvl : ElogLvl}
    (hfind : elogFindTag log lvl = some (start, len)) :
    strncmpEq tag.length (strncpy tempBuffSize tag) (log.drop start) = true ↔
      tag <+: (log.drop start).take len := by
  obtain ⟨k, hk, heq⟩ := Option.map_eq_some_iff.mp hfind
  cases heq
  obtain ⟨rest, hsplit, -⟩ := append_of_memchr hk
  rw [h.strncpy_eq, strncmpEq_append_iff h.noNul]
  conv_lhs => rw [hsplit]
  exact isPrefix_append_cons_iff h.noSpace rest

theorem delTagCb_of_deleted {tempBuff : List UInt8} (hs : tsl.status = .deleted) :
    delTagCb tempBuff tsl = some (tsl, false) := by
  rw [delTagCb, if_neg (not_not_intro hs)]
  rfl

/-- A line without a tag makes the callback compare with NULL. -/
theorem delTagCb_of_tagField_none {tempBuff : List UInt8} (hs : tsl.status ≠ .deleted)
    (hf : tagField tsl.log = none) : delTagCb tempBuff tsl = none := by
  have hfind := Option.map_eq_none_iff.mp hf
  simp only [delTagCb, if_pos hs, hfind, Option.bind_eq_bind, Option.bind_none]

theorem delTagCb_of_tagField (htag : IsTag tag) (hs : tsl.status ≠ .deleted)
    (hf : tagField tsl.log = some field) :
    delTagCb (strncpy tempBuffSize tag) tsl =
      some (if tag <+: field then fdbTslSetStatus tsl .deleted else tsl, false) := by
  obtain ⟨⟨start, len⟩, hfind, rfl⟩ := Option.map_eq_some_iff.mp hf
  simp only [delTagCb, if_pos hs, hfind, htag.strlen_eq, Option.bind_eq_bind, Option.bind_some,
    htag.strncmpEq_iff hfind]
  rfl

theorem delTagCb_goes_on {tempBuff : List UInt8} {r : Tsl × Bool}
    (h : delTagCb tempBuff tsl = some r) : r.2 = false := by
  by_cases hs : tsl.status = .deleted
  · rw [delTagCb_of_deleted hs] at h
    cases h
    rfl
  · rw [delTagCb, if_pos hs] at h
    simp only [Option.bind_eq_bind, Option.bind_eq_some_iff] at h
    obtain ⟨_, _, _, _, h⟩ := h
    cases h
    rfl

/-! ## All records -/

/-- A callback that never stops visits every record. -/
theorem fdbTslIter_eq_some_iff {cb : Tsl → Option (Tsl × Bool)}
    (hcb : ∀ tsl r, cb tsl = some r → r.2 = false) :
    fdbTslIter cb db = some db' ↔ List.Forall₂ (fun tsl tsl' => cb tsl = some (tsl', false)) db db' := by
  induction db generalizing db' with
  | nil =>
    rw [fdbTslIter, List.forall₂_nil_left_iff, Option.some.injEq]
    exact eq_comm
  | cons tsl db ih =>
    rw [List.forall₂_cons_left_iff, fdbTslIter]
    cases h : cb tsl with
    | none => simp
    | some r =>
      obtain ⟨tsl', stop⟩ := r
      cases hcb tsl _ h
      simp only [Option.map_eq_some_iff, ih, Option.some.injEq, Prod.mk.injEq, and_true]
      constructor
      · rintro ⟨rest, hrest, rfl⟩
        exact ⟨tsl', rest, rfl, hrest, rfl⟩
      · rintro ⟨_, rest, rfl, hrest, rfl⟩
        exact ⟨rest, hrest, rfl⟩

theorem elogDeleteTagHistory_iff :
    elogDeleteTagHistory (some tag) db = some (1, db') ↔
      List.Forall₂ (fun tsl tsl' => delTagCb (strncpy tempBuffSize tag) tsl = some (tsl', false)) db db' := by
  rw [← fdbTslIter_eq_some_iff fun _ _ => delTagCb_goes_on]
  simp [elogDeleteTagHistory]

theorem log_fdbTslSetStatus (status : FdbTslStatus) : (fdbTslSetStatus tsl status).log = tsl.log := rfl

theorem fdbTslSetStatus_deleted (hs : tsl.status ≠ .userStatus2) :
    (fdbTslSetStatus tsl .deleted).status = .deleted := by
  obtain ⟨status, log⟩ := tsl
  cases status <;> first | rfl | exact absurd rfl hs

theorem fdbTslSetStatus_of_userStatus2 (hs : tsl.status = .userStatus2) (status : FdbTslStatus) :
    (fdbTslSetStatus tsl status).status = .userStatus2 := by
  rw [fdbTslSetStatus, hs]
  cases status <;> rfl

/-- Leaving a live record as it is. -/
theorem deletes_iff_of_kept (hs : tsl.status ≠ .deleted) (hlog : tsl'.log = tsl.log)
    (hkept : tsl'.status = tsl.status) : Deletes tag tsl tsl' ↔ tagField tsl.log ≠ some tag := by
  have hs' : tsl'.status ≠ .deleted := hkept ▸ hs
  constructor
  · exact fun hd htag => hs' ((hd.live hs).mpr htag)
  · exact fun hne => ⟨hlog, fun hd => absurd hd hs, fun _ => iff_of_false hs' hne, fun _ => hkept⟩

/-- Marking a live record as deleted. -/
theorem deletes_iff_of_marked (hs : tsl.status ≠ .deleted) (hlog : tsl'.log = tsl.log)
    (hmarked : tsl'.status = .deleted) : Deletes tag tsl tsl' ↔ tagField tsl.log = some tag := by
  constructor
  · exact fun hd => (hd.live hs).mp hmarked
  · exact fun htag => ⟨hlog, fun _ => hmarked, fun _ => iff_of_true hmarked htag, absurd htag⟩

/-- The new status of a live record whose tag is found is right if and only if the record is deletable. -/
theorem deletes_iff_of_tagField (hs : tsl.status ≠ .deleted) (hf : tagField tsl.log = some field) :
    Deletes tag tsl (if tag <+: field then fdbTslSetStatus tsl .deleted else tsl) ↔
      (tag <+: field → (field = tag ↔ tsl.status ≠ .userStatus2)) := by
  have hfield : tagField tsl.log = some tag ↔ field = tag := by rw [hf, Option.some.injEq]
  by_cases hp : tag <+: field
  · rw [if_pos hp, forall_prop_of_true hp]
    by_cases hu : tsl.status = .userStatus2
    · have hkept := (fdbTslSetStatus_of_userStatus2 hu .deleted).trans hu.symm
      rw [deletes_iff_of_kept hs (log_fdbTslSetStatus _) hkept, Ne, hfield]
      exact (iff_false_right (not_not_intro hu)).symm
    · rw [deletes_iff_of_marked hs (log_fdbTslSetStatus _) (fdbTslSetStatus_deleted hu), hfield]
      exact (iff_true_right hu).symm
  · have hne : field ≠ tag := fun heq => hp (heq ▸ List.prefix_rfl)
    rw [if_neg hp, deletes_iff_of_kept hs rfl rfl, Ne, hfield]
    exact iff_of_true hne fun h => absurd h hp

/-- What the callback makes of one record is right if and only if the record is deletable. -/
theorem deletes_iff (htag : IsTag tag) :
    (∃ tsl', delTagCb (strncpy tempBuffSize tag) tsl = some (tsl', false) ∧ Deletes tag tsl tsl') ↔
      Deletable tag tsl := by
  by_cases hs : tsl.status = .deleted
  · exact iff_of_true ⟨tsl, delTagCb_of_deleted hs, rfl, id, absurd hs, fun _ => rfl⟩ (absurd hs)
  rw [Deletable, forall_prop_of_true hs]
  cases hf : tagField tsl.log with
  | none => simp [delTagCb_of_tagField_none hs hf]
  | some field =>
    rw [delTagCb_of_tagField htag hs hf]
    constructor
    · rintro ⟨tsl', hcb, hd⟩
      cases hcb
      exact ⟨field, rfl, (deletes_iff_of_tagField hs hf).mp hd⟩
    · rintro ⟨field', heq, h⟩
      cases heq
      exact ⟨_, rfl, (deletes_iff_of_tagField hs hf).mpr h⟩

theorem exists_forall₂_iff {α β : Type} {R : α → β → Prop} {as : List α} :
    (∃ bs, List.Forall₂ R as bs) ↔ ∀ a ∈ as, ∃ b, R a b := by
  induction as with
  | nil => exact iff_of_true ⟨[], .nil⟩ (by simp)
  | cons a as ih =>
    rw [List.forall_mem_cons, ← ih]
    constructor
    · rintro ⟨_, hbs⟩
      cases hbs with
      | cons hab hrest => exact ⟨⟨_, hab⟩, _, hrest⟩
    · rintro ⟨⟨b, hab⟩, bs, hrest⟩
      exact ⟨b :: bs, .cons hab hrest⟩

/-- Deleting a tag deletes exactly that tag if and only if every record that is not deleted has a tag
that is found, and none of these tags begins with the given one and goes on. -/
theorem deletesExactly_iff {tag : List UInt8} (htag : IsTag tag) (db : List Tsl) :
    DeletesExactly tag db ↔ ∀ tsl ∈ db, Deletable tag tsl := by
  have hboth : DeletesExactly tag db ↔ ∃ db', List.Forall₂
      (fun tsl tsl' => delTagCb (strncpy tempBuffSize tag) tsl = some (tsl', false) ∧
        Deletes tag tsl tsl') db db' := by
    refine exists_congr fun db' => ?_
    rw [elogDeleteTagHistory_iff]
    exact ⟨fun h => h.1.mp (fun _ _ => And.intro) h.2,
      fun h => ⟨h.imp fun _ _ => And.left, h.imp fun _ _ => And.right⟩⟩
  rw [hboth, exists_forall₂_iff]
  exact forall₂_congr fun tsl _ => deletes_iff htag

/-- The tag "fota". -/
def fotaTag : List UInt8 := [0x66, 0x6f, 0x74, 0x61]

/-- The tag "fota2". -/
def fotaTwoTag : List UInt8 := [0x66, 0x6f, 0x74, 0x61, 0x32]

theorem isTag_fotaTag : IsTag fotaTag := ⟨by decide, by decide, by decide, by decide⟩

theorem isTag_fotaTwoTag : IsTag fotaTwoTag := ⟨by decide, by decide, by decide, by decide⟩

def fotaRecord : Tsl := ⟨.write, elogLine .info fotaTag []⟩

def fotaTwoRecord : Tsl := ⟨.write, elogLine .warn fotaTwoTag []⟩

theorem tagField_fotaTwoRecord : tagField fotaTwoRecord.log = some fotaTwoTag :=
  tagField_elogLine isTag_fotaTwoTag _ _

/-- A deletion of the longer tag leaves the shorter one. -/
theorem deletesExactly_fotaTwoTag : DeletesExactly fotaTwoTag [fotaRecord, fotaTwoRecord] := by
  refine (deletesExactly_iff isTag_fotaTwoTag _).mpr fun tsl htsl _ => ?_
  rcases List.mem_cons.mp htsl with rfl | htsl
  · exact ⟨fotaTag, tagField_elogLine isTag_fotaTag _ _, by decide⟩
  · rw [List.mem_singleton.mp htsl]
    exact ⟨fotaTwoTag, tagField_fotaTwoRecord, by decide⟩

/-- A deletion of the shorter tag takes the longer one with it. -/
theorem not_deletesExactly_fotaTag :
    IsTag fotaTag ∧ ¬ DeletesExactly fotaTag [fotaTwoRecord] := by
  refine ⟨isTag_fotaTag, ?_⟩
  rintro ⟨db', h, hdeletes⟩
  have hs : fotaTwoRecord.status ≠ .deleted := by decide
  have hp : fotaTag <+: fotaTwoTag := by decide
  have hset : (fdbTslSetStatus fotaTwoRecord .deleted).status = .deleted := by decide
  rw [elogDeleteTagHistory_iff] at h
  cases h with
  | cons hcb _ =>
    cases hdeletes with
    | cons hd _ =>
      rw [delTagCb_of_tagField isTag_fotaTag hs tagField_fotaTwoRecord, if_pos hp] at hcb
      cases hcb
      have htag := (hd.live hs).mp hset
      rw [tagField_fotaTwoRecord] at htag
      exact absurd htag (by decide)

end McuUtilities.FlashDB
