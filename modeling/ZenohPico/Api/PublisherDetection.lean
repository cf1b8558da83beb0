import Mathlib.Data.List.TakeWhile
import ZenohPico.Collections.SplitString
import ZenohPico.Keyexpr.CanonizeCorrect
import ZenohPico.Session.DeclaredKeyexpr
import ZenohPico.Session.ZidText

/-!
The keys by which advanced subscribers detect advanced publishers, which a publisher makes
(`src/api/advanced_publisher.c`) and a subscriber takes apart (`src/api/advanced_subscriber.c`).

A key ends in `@adv/pub/<zid>/<eid>/<metadata>`. The subscriber counts chunks from the end, as if
the metadata were one of them. With two to four chunks of metadata nothing is found where it is
looked for; with five or more, what is looked at is the metadata itself.
-/

open List Option

namespace ZenohPico.Api

open Collections Foundations Keyexpr Protocol Session

/-- `_Z_KEYEXPR_ADV_PREFIX` -/
def keAdvPrefix : Bytes := [0x40, 0x61, 0x64, 0x76]

/-- `_Z_KEYEXPR_PUB` -/
def kePub : Bytes := [0x70, 0x75, 0x62]

/-- `_Z_KEYEXPR_UHLC` -/
def keUhlc : Bytes := [0x75, 0x68, 0x6C, 0x63]

/-- `_Z_KEYEXPR_EMPTY` -/
def keEmpty : Bytes := [0x5F]

/-! ### The publisher -/

/-- `_ze_advanced_publisher_sequencing_t` -/
inductive Sequencing
  | none
  | timestamp
  | sequenceNumber
deriving DecidableEq, Repr

/-- `_z_keyexpr_append_suffix`. No `*` is in memory behind the block of the text. -/
def keyexprAppendSuffix (left right : Bytes) : Option Bytes :=
  if left.length = 0 then if right.length = 0 then none else some right
  else keyexprJoin left right []

/-- The chunk with the number of a publisher, or with the word for timestamps -/
def eidText (eid : UInt32) (sequencing : Sequencing) : Bytes :=
  if sequencing = .sequenceNumber then decimal eid.toNat else keUhlc

/-- `_ze_advanced_publisher_ke_suffix` -/
def keSuffix (id : EntityGlobalId) (sequencing : Sequencing) (metadata : Option Bytes) :
    Option Bytes := do
  let suffix ← keyexprAppendSuffix [] keAdvPrefix
  let suffix ← keyexprAppendSuffix suffix kePub
  let suffix ← keyexprAppendSuffix suffix (idToString id.zid)
  let suffix ← keyexprAppendSuffix suffix (eidText id.eid sequencing)
  match metadata with
  | some metadata => keyexprAppendSuffix suffix metadata
  | none => keyexprAppendSuffix suffix keEmpty

/-! ### The subscriber -/

/-- `isspace` -/
def isSpace (c : UInt8) : Bool := c = 0x20 ∨ 0x09 ≤ c ∧ c ≤ 0x0D

/-- The sign of a number, and what is behind it -/
def signOf (text : List UInt8) : Bool × List UInt8 :=
  if text.head? = some 0x2D then (true, text.tail)
  else if text.head? = some 0x2B then (false, text.tail)
  else (false, text)

/-- `strtoul` with base ten and 64 bits: the number and the text behind it, which is the whole text
where there is no number -/
def strtoul (text : List UInt8) : ℕ × List UInt8 :=
  let (negative, unsigned) := signOf (text.dropWhile isSpace)
  let digits := unsigned.takeWhile fun c ↦ decide (IsDigit c)
  let value := numberFrom 0 digits
  if digits = [] then (0, text)
  else
    (if 2 ^ 64 ≤ value then 2 ^ 64 - 1 else if negative then (2 ^ 64 - value) % 2 ^ 64 else value,
      unsigned.dropWhile fun c ↦ decide (IsDigit c))

/-- `_ze_advanced_subscriber_parse_liveliness_keyexpr_u32` -/
def parseLivelinessU32 (segment : Bytes) : Option UInt32 :=
  if segment.length = 0 ∨ 11 ≤ segment.length then none
  else
    -- the copy is a string, and ends at a null byte
    let buf := segment.takeWhile (· ≠ 0)
    let (val, rest) := strtoul buf
    if rest = buf ∨ rest ≠ [] ∨ 0xFFFFFFFF < val then none else some (.ofNat val)

/-- The second segment from the end, with 0 for timestamps -/
def livelinessEid (segment : Bytes) : Option UInt32 :=
  if segment = keUhlc then some 0
  else (parseLivelinessU32 segment).bind fun eid ↦ if eid = 0 then none else some eid

/-- The third segment from the end -/
def livelinessZid (segment : Bytes) : Option ZenohId :=
  if idCheck (idFromString segment) then some (idFromString segment) else none

/-- The segment `cnt` from the end, in the loop of
`_ze_advanced_subscriber_parse_liveliness_keyexpr` -/
def parseSegment (cnt : ℕ) (segment : Bytes) (id : EntityGlobalId) : Option EntityGlobalId :=
  if cnt = 2 then (livelinessEid segment).map fun eid ↦ { id with eid }
  else if cnt = 3 then (livelinessZid segment).map fun zid ↦ { id with zid }
  else if cnt = 5 then if segment = keAdvPrefix then some id else none
  else some id

/-- The loop of `_ze_advanced_subscriber_parse_liveliness_keyexpr` -/
def parseSegments (segments : Option Bytes) (cnt : ℕ) (id : EntityGlobalId) :
    Option (ℕ × EntityGlobalId) :=
  if segments = none ∨ 5 ≤ cnt then some (cnt, id)
  else do
    let (segment, segments) := splitstrNextback [delimiter] segments
    let id ← parseSegment (cnt + 1) (segment.getD []) id
    parseSegments segments (cnt + 1) id
termination_by 5 - cnt

/-- `_ze_advanced_subscriber_parse_liveliness_keyexpr` into an id that holds anything -/
def parseLivelinessKeyexpr (ke : Bytes) (id : EntityGlobalId) : Option EntityGlobalId := do
  let (cnt, id) ← parseSegments (some ke) 0 id
  if cnt < 5 then none else some id

/-! ### Chunks of a key -/

/-- A chunk without wildcards and without bytes that no key expression may have -/
def PlainChunk (c : Bytes) : Prop := c ≠ [] ∧ ∀ b ∈ c, Literal b ∧ b ≠ delimiter

instance (c : Bytes) : Decidable (PlainChunk c) :=
  @instDecidableAnd _ _ _ (List.decidableBAll (fun b ↦ Literal b ∧ b ≠ delimiter) c)

namespace PlainChunk

variable {c : Bytes}

theorem canonicalLetter (h : PlainChunk c) : CanonicalLetter c := by
  have hnot {b : UInt8} (hb : ¬ Literal b) : b ∉ c := fun hmem ↦ hb (h.2 b hmem).1
  have hsharp : sharp ∉ c := hnot (by decide)
  have hqmark : qmark ∉ c := hnot (by decide)
  have hdollar : dsl0 ∉ c := hnot (by decide)
  have hstar : star ∉ c := hnot (by decide)
  have hcanonical : CanonicalChunk c := by
    refine ⟨h.1, hsharp, hqmark, fun i hi ↦ ?_, fun _ _ i hi ↦ ?_, ?_, ?_⟩
    · exact absurd (mem_of_getElem? hi) hdollar
    · exact absurd (mem_of_getElem? hi) hstar
    · exact fun hin ↦ hdollar (hin.subset (by decide))
    · rintro rfl
      exact hdollar (by decide)
  rcases canonicalChunk_iff.mp hcanonical with rfl | hletter
  · exact absurd mem_cons_self hstar
  · exact hletter

theorem chunkPass (h : PlainChunk c) : Keyexpr.chunkPass false c = .next false := by
  have hpos := length_pos_iff.mpr h.1
  by_cases hone : c.length = 1
  · exact chunkPass_single hone fun h ↦ absurd h Bool.false_ne_true
  · exact chunkPass_letter h.canonicalLetter (by omega)

end PlainChunk

variable {cs left right front : List Bytes}

theorem passState_plain (h : ∀ c ∈ cs, PlainChunk c) (rest : List Bytes) :
    passState false (cs ++ rest) = passState false rest := by
  induction cs with
  | nil => rfl
  | cons c cs ih =>
    rw [cons_append, passState, (h c mem_cons_self).chunkPass]
    exact ih fun d hd ↦ h d (mem_cons_of_mem _ hd)

theorem joinChunks_append (hleft : left ≠ []) (hright : right ≠ []) :
    joinChunks (left ++ right) = joinChunks left ++ delimiter :: joinChunks right := by
  induction left with
  | nil => exact absurd rfl hleft
  | cons c left ih =>
    rcases eq_or_ne left [] with rfl | hne
    · rw [singleton_append, joinChunks_cons c hright, joinChunks_singleton]
    · rw [cons_append, joinChunks_cons c (by simp [hne]), ih hne, joinChunks_cons c hne,
        append_assoc, cons_append]

/-- Chunks that the check of key expressions gets past are joined as they are. -/
theorem keyexprJoin_chunks {left right : List Bytes} (hleft : left ≠ []) (hright : right ≠ [])
    (hfree : ∀ c ∈ left ++ right, delimiter ∉ c)
    (hpass : (passState false (left ++ right)).isSome) :
    keyexprJoin (joinChunks left) (joinChunks right) [] = some (joinChunks (left ++ right)) := by
  have hchunks : chunks (joinChunks (left ++ right)) = left ++ right :=
    chunks_joinChunks (by simp [hleft]) hfree
  have hread : ¬ Overread (joinChunks (left ++ right)) [] := fun hread ↦ nomatch hread.2
  have hcanon := keyexprCanonize_of_isCanon
    ((keyexprIsCanon_eq_success_iff (joinChunks (left ++ right))).mpr (by rwa [hchunks])) hread
  rw [append_nil] at hcanon
  have hnonempty : joinChunks right ≠ [] := by
    obtain ⟨c, cs, rfl⟩ := exists_cons_of_ne_nil hright
    have hc : c ≠ [] := by
      rcases (passState_isSome_iff.mp hpass).1 c (by simp) with hcanonical | hone
      · exact hcanonical.ne_nil
      · rintro rfl
        exact absurd hone (by decide)
    rcases eq_or_ne cs [] with rfl | hne
    · rwa [joinChunks_singleton]
    · rw [joinChunks_cons c hne]
      simp
  rw [keyexprJoin, joinedText, if_neg hnonempty, ← joinChunks_append hleft hright, append_nil]
  simp only [hcanon, take_length]

/-- Plain chunks in front of accepted ones make a suffix one by one. -/
theorem keyexprAppendSuffix_chunks (hplain : ∀ c ∈ left, PlainChunk c) (hleft : left ≠ [])
    (hright : right ≠ []) (hfree : ∀ c ∈ right, delimiter ∉ c)
    (hpass : (passState false right).isSome) :
    keyexprAppendSuffix (joinChunks left) (joinChunks right) =
      some (joinChunks (left ++ right)) := by
  have hnonempty : joinChunks left ≠ [] := by
    obtain ⟨c, cs, rfl⟩ := exists_cons_of_ne_nil hleft
    have hc := (hplain c mem_cons_self).1
    rcases eq_or_ne cs [] with rfl | hne
    · rwa [joinChunks_singleton]
    · rw [joinChunks_cons c hne]
      simp
  rw [keyexprAppendSuffix, if_neg (by simpa using hnonempty)]
  refine keyexprJoin_chunks hleft hright (fun c hc ↦ ?_) (by rwa [passState_plain hplain])
  rcases mem_append.mp hc with hc | hc
  · exact fun hmem ↦ ((hplain c hc).2 delimiter hmem).2 rfl
  · exact hfree c hc

/-! ### The key of a publisher -/

/-- The chunks of a suffix in front of the metadata -/
def suffixChunks (id : EntityGlobalId) (sequencing : Sequencing) : List Bytes :=
  [keAdvPrefix, kePub, idToString id.zid, eidText id.eid sequencing]

/-- The chunks of the metadata, or the chunk that stands for none -/
def metadataChunks (metadata : Option Bytes) : List Bytes := metadata.elim [keEmpty] chunks

theorem plainChunk_digits {n : ℕ} : PlainChunk (decimal n) := by
  refine ⟨decimal_ne_nil n, fun b hb ↦ ?_⟩
  have hall : ∀ k : Fin 256, IsDigit (UInt8.ofNat k.val) →
      Literal (UInt8.ofNat k.val) ∧ UInt8.ofNat k.val ≠ delimiter := by decide +kernel
  have h := hall ⟨b.toNat, b.toNat_lt⟩
  rw [UInt8.ofNat_toNat] at h
  exact h (isDigit_of_mem_decimal hb)

theorem plainChunk_idToString (id : ZenohId) : PlainChunk (idToString id) := by
  refine ⟨fun hnil ↦ ?_, fun b hb ↦ ?_⟩
  · have hlen := length_idToString id
    rw [hnil] at hlen
    cases hlen
  · have hall : ∀ k : Fin 256, isLowerHex (UInt8.ofNat k.val) = true →
        Literal (UInt8.ofNat k.val) ∧ UInt8.ofNat k.val ≠ delimiter := by decide +kernel
    have h := hall ⟨b.toNat, b.toNat_lt⟩
    rw [UInt8.ofNat_toNat] at h
    exact h (isLowerHex_of_mem_idToString hb)

theorem plainChunk_suffixChunks (id : EntityGlobalId) (sequencing : Sequencing) :
    ∀ c ∈ suffixChunks id sequencing, PlainChunk c := by
  have hadv : PlainChunk keAdvPrefix := by decide
  have hpub : PlainChunk kePub := by decide
  have huhlc : PlainChunk keUhlc := by decide
  have heid : PlainChunk (eidText id.eid sequencing) := by
    unfold eidText
    split_ifs
    · exact plainChunk_digits
    · exact huhlc
  intro c hc
  simp only [suffixChunks, mem_cons, not_mem_nil, or_false] at hc
  rcases hc with rfl | rfl | rfl | rfl
  · exact hadv
  · exact hpub
  · exact plainChunk_idToString id.zid
  · exact heid

/-- What the check of key expressions accepts -/
def Accepted (key : Bytes) : Prop := keyexprIsCanon key key.length = .success

theorem metadataChunks_pass {metadata : Option Bytes} (h : ∀ m ∈ metadata, Accepted m) :
    (passState false (metadataChunks metadata)).isSome ∧ metadataChunks metadata ≠ [] ∧
      ∀ c ∈ metadataChunks metadata, delimiter ∉ c := by
  cases metadata with
  | none => exact ⟨by decide, by decide, by decide⟩
  | some m =>
    exact ⟨(keyexprIsCanon_eq_success_iff m).mp (h m rfl), chunks_ne_nil m,
      fun c hc ↦ delimiter_notMem_of_mem_chunks hc⟩

theorem keyexprAppendSuffix_plain (left : List Bytes) {c : Bytes}
    (hplain : ∀ d ∈ left, PlainChunk d) (hleft : left ≠ []) (hc : PlainChunk c) :
    keyexprAppendSuffix (joinChunks left) c = some (joinChunks (left ++ [c])) := by
  have hpass : (passState false [c]).isSome := by
    rw [passState, hc.chunkPass]
    rfl
  have h := keyexprAppendSuffix_chunks hplain hleft (cons_ne_nil c []) (fun d hd hmem ↦ by
    rw [mem_singleton.mp hd] at hmem
    exact (hc.2 delimiter hmem).2 rfl) hpass
  rwa [joinChunks_singleton] at h

/-- A publisher makes its suffix of the chunks. -/
theorem keSuffix_eq (id : EntityGlobalId) (sequencing : Sequencing) {metadata : Option Bytes}
    (h : ∀ m ∈ metadata, Accepted m) : keSuffix id sequencing metadata =
      some (joinChunks (suffixChunks id sequencing ++ metadataChunks metadata)) := by
  have hplain := plainChunk_suffixChunks id sequencing
  simp only [suffixChunks, forall_mem_cons] at hplain
  obtain ⟨hadv, hpub, hzid, heid, -⟩ := hplain
  have hfirst : keyexprAppendSuffix [] keAdvPrefix = some (joinChunks [keAdvPrefix]) := rfl
  have hsecond : keyexprAppendSuffix (joinChunks [keAdvPrefix]) kePub =
      some (joinChunks [keAdvPrefix, kePub]) :=
    keyexprAppendSuffix_plain [keAdvPrefix] (by simpa using hadv) (cons_ne_nil _ _) hpub
  have hthird : keyexprAppendSuffix (joinChunks [keAdvPrefix, kePub]) (idToString id.zid) =
      some (joinChunks [keAdvPrefix, kePub, idToString id.zid]) :=
    keyexprAppendSuffix_plain [keAdvPrefix, kePub] (by simpa using ⟨hadv, hpub⟩)
      (cons_ne_nil _ _) hzid
  have hfourth : keyexprAppendSuffix (joinChunks [keAdvPrefix, kePub, idToString id.zid])
      (eidText id.eid sequencing) = some (joinChunks (suffixChunks id sequencing)) :=
    keyexprAppendSuffix_plain [keAdvPrefix, kePub, idToString id.zid]
      (by simpa using ⟨hadv, hpub, hzid⟩) (cons_ne_nil _ _) heid
  obtain ⟨hpass, hne, hfree⟩ := metadataChunks_pass h
  have hlast := keyexprAppendSuffix_chunks (plainChunk_suffixChunks id sequencing)
    (cons_ne_nil _ _) hne hfree hpass
  have hmetadata : joinChunks (metadataChunks metadata) = metadata.getD keEmpty := by
    cases metadata with
    | none => exact joinChunks_singleton keEmpty
    | some m => exact joinChunks_chunks m
  rw [hmetadata] at hlast
  simp only [keSuffix, hfirst, hsecond, hthird, hfourth, bind_eq_bind, bind_some]
  cases metadata with
  | none => exact hlast
  | some m => exact hlast

/-- The chunks of the key of a publisher -/
def detectionChunks (base : Bytes) (id : EntityGlobalId) (sequencing : Sequencing)
    (metadata : Option Bytes) : List Bytes :=
  chunks base ++ (suffixChunks id sequencing ++ metadataChunks metadata)

/-- The key of a publisher is made of the chunks. -/
theorem keyexprJoin_suffix {base : Bytes} (hbase : Accepted base) (id : EntityGlobalId)
    (sequencing : Sequencing) {metadata : Option Bytes} (h : ∀ m ∈ metadata, Accepted m) :
    keyexprJoin base (joinChunks (suffixChunks id sequencing ++ metadataChunks metadata)) [] =
      some (joinChunks (detectionChunks base id sequencing metadata)) := by
  obtain ⟨hpass, hne, hfree⟩ := metadataChunks_pass h
  have hplain := plainChunk_suffixChunks id sequencing
  have hsuffix : ∀ c ∈ suffixChunks id sequencing ++ metadataChunks metadata, delimiter ∉ c := by
    intro c hc
    rcases mem_append.mp hc with hc | hc
    · exact fun hmem ↦ ((hplain c hc).2 delimiter hmem).2 rfl
    · exact hfree c hc
  obtain ⟨big, hbig⟩ := isSome_iff_exists.mp ((keyexprIsCanon_eq_success_iff base).mp hbase)
  have hall : (passState false (detectionChunks base id sequencing metadata)).isSome := by
    -- the first chunk of the suffix is a plain one of four bytes, so that the flag goes
    have hadv : CanonicalLetter keAdvPrefix := PlainChunk.canonicalLetter (by decide)
    rw [detectionChunks, passState_append, hbig, bind_some, suffixChunks, cons_append,
      passState, chunkPass_letter hadv (by decide)]
    have htail : ∀ c ∈ [kePub, idToString id.zid, eidText id.eid sequencing], PlainChunk c :=
      fun c hc ↦ hplain c (mem_cons_of_mem _ hc)
    change (passState false ([kePub, idToString id.zid, eidText id.eid sequencing] ++
      metadataChunks metadata)).isSome = true
    rwa [passState_plain htail]
  have hjoin := keyexprJoin_chunks (chunks_ne_nil base)
    (show suffixChunks id sequencing ++ metadataChunks metadata ≠ [] by simp [suffixChunks])
    (fun c hc ↦ (mem_append.mp hc).elim delimiter_notMem_of_mem_chunks (hsuffix c)) hall
  rwa [joinChunks_chunks] at hjoin

/-! ### What the subscriber reads -/

/-- A digit is no space, no sign and no null byte. -/
theorem digit_class {c : UInt8} (h : IsDigit c) :
    isSpace c = false ∧ c ≠ 0x2D ∧ c ≠ 0x2B ∧ c ≠ 0 := by
  have hall : ∀ k : Fin 256, IsDigit (UInt8.ofNat k.val) → isSpace (UInt8.ofNat k.val) = false ∧
      UInt8.ofNat k.val ≠ 0x2D ∧ UInt8.ofNat k.val ≠ 0x2B ∧ UInt8.ofNat k.val ≠ 0 := by
    decide +kernel
  have hc := hall ⟨c.toNat, c.toNat_lt⟩
  rw [UInt8.ofNat_toNat] at hc
  exact hc h

theorem strtoul_decimal {n : ℕ} (hn : n < 2 ^ 64) : strtoul (decimal n) = (n, []) := by
  have hdigits : ∀ c ∈ decimal n, decide (IsDigit c) = true :=
    fun c hc ↦ decide_eq_true (isDigit_of_mem_decimal hc)
  have htake : (decimal n).takeWhile (fun c ↦ decide (IsDigit c)) = decimal n :=
    takeWhile_eq_self_iff.mpr hdigits
  have hdrop : (decimal n).dropWhile (fun c ↦ decide (IsDigit c)) = [] :=
    dropWhile_eq_nil_iff.mpr hdigits
  obtain ⟨c, text, heq⟩ := exists_cons_of_ne_nil (decimal_ne_nil n)
  obtain ⟨hspace, hminus, hplus, -⟩ :=
    digit_class (isDigit_of_mem_decimal (n := n) (heq ▸ mem_cons_self))
  have hstart : (decimal n).dropWhile isSpace = decimal n := by
    rw [heq, dropWhile_cons_of_neg]
    rw [hspace]
    exact Bool.false_ne_true
  have hsign : signOf (decimal n) = (false, decimal n) := by
    rw [signOf, heq, List.head?_cons, if_neg (by simpa using hminus), if_neg (by simpa using hplus)]
  simp only [strtoul, hstart, hsign, htake, hdrop, numberFrom_decimal]
  rw [if_neg (decimal_ne_nil n), if_neg (by omega), if_neg Bool.false_ne_true]

/-- The text of a number is read as the number. -/
theorem parseLivelinessU32_decimal (n : UInt32) :
    parseLivelinessU32 (decimal n.toNat) = some n := by
  have hne := decimal_ne_nil n.toNat
  have hpos := length_pos_iff.mpr hne
  have hsmall := n.toNat_lt
  have hlen : (decimal n.toNat).length ≤ 10 :=
    (length_decimal_le_iff (by decide)).mpr (hsmall.trans (by decide))
  have hbuf : (decimal n.toNat).takeWhile (· ≠ 0) = decimal n.toNat :=
    takeWhile_eq_self_iff.mpr fun c hc ↦ by
      simpa using (digit_class (isDigit_of_mem_decimal hc)).2.2.2
  rw [parseLivelinessU32, if_neg (by omega), hbuf]
  simp only [strtoul_decimal (hsmall.trans (by decide))]
  rw [if_neg, UInt32.ofNat_toNat]
  rintro (hnil | hnil | hlarge)
  · exact hne hnil.symm
  · exact hnil rfl
  · omega

theorem eidText_ne_keAdvPrefix (eid : UInt32) (sequencing : Sequencing) :
    eidText eid sequencing ≠ keAdvPrefix := by
  unfold eidText
  split_ifs
  · intro heq
    have hat : (0x40 : UInt8) ∈ decimal eid.toNat := heq ▸ mem_cons_self
    exact absurd (isDigit_of_mem_decimal hat) (by decide)
  · decide

/-- The number that stands for a publisher: 0 for timestamps -/
def detectedEid (eid : UInt32) (sequencing : Sequencing) : UInt32 :=
  if sequencing = .sequenceNumber then eid else 0

theorem livelinessEid_eidText {eid : UInt32} (heid : eid ≠ 0) (sequencing : Sequencing) :
    livelinessEid (eidText eid sequencing) = some (detectedEid eid sequencing) := by
  unfold eidText detectedEid
  split_ifs
  · have hne : decimal eid.toNat ≠ keUhlc := by
      intro heq
      have hletter : (0x75 : UInt8) ∈ decimal eid.toNat := heq ▸ mem_cons_self
      exact absurd (isDigit_of_mem_decimal hletter) (by decide)
    rw [livelinessEid, if_neg hne, parseLivelinessU32_decimal, bind_some, if_neg heid]
  · rfl

theorem livelinessZid_eq_some_iff {segment : Bytes} {zid : ZenohId} (hzid : idCheck zid = true) :
    livelinessZid segment = some zid ↔ segment = idToString zid := by
  rw [livelinessZid, ite_none_right_eq_some, some.injEq, idFromString_iff hzid]
  refine ⟨And.right, ?_⟩
  rintro rfl
  exact ⟨by rwa [idFromString_toString], rfl⟩

theorem joined_chunks (h : cs ≠ []) :
    joined delimiter cs = some (joinChunks cs) := joined_of_ne_nil h

/-- One turn of the loop takes the last chunk. -/
theorem parseSegments_concat {c : Bytes} (hfree : ∀ d ∈ front ++ [c], delimiter ∉ d) {cnt : ℕ}
    (hcnt : cnt < 5) (id : EntityGlobalId) :
    parseSegments (joined delimiter (front ++ [c])) cnt id =
      (parseSegment (cnt + 1) c id).bind fun id ↦
        parseSegments (joined delimiter front) (cnt + 1) id := by
  have hsome : joined delimiter (front ++ [c]) ≠ none := by
    rw [joined_chunks (by simp)]
    exact some_ne_none _
  rw [parseSegments, if_neg (not_or.mpr ⟨hsome, by omega⟩), splitstrNextback_joined hfree]
  simp

/-- With five chunks at least, the last five decide. -/
theorem parseLivelinessKeyexpr_chunks {c₁ c₂ c₃ c₄ c₅ : Bytes}
    (hfree : ∀ d ∈ front ++ [c₅, c₄, c₃, c₂, c₁], delimiter ∉ d) (id : EntityGlobalId) :
    parseLivelinessKeyexpr (joinChunks (front ++ [c₅, c₄, c₃, c₂, c₁])) id =
      (livelinessEid c₂).bind fun eid ↦ (livelinessZid c₃).bind fun zid ↦
        if c₅ = keAdvPrefix then some ⟨zid, eid⟩ else none := by
  have hpart (n : ℕ) : ∀ d ∈ front ++ [c₅, c₄, c₃, c₂, c₁].take n, delimiter ∉ d := by
    intro d hd
    refine hfree d (mem_append.mpr ?_)
    exact (mem_append.mp hd).imp_right mem_of_mem_take
  have hdone (id : EntityGlobalId) :
      parseSegments (joined delimiter front) 5 id = some (5, id) := by
    rw [parseSegments, if_pos (.inr le_rfl)]
  have hfive (id : EntityGlobalId) : parseSegments (joined delimiter (front ++ [c₅])) 4 id =
      if c₅ = keAdvPrefix then some (5, id) else none := by
    rw [parseSegments_concat (hpart 1) (by decide)]
    by_cases hadv : c₅ = keAdvPrefix
    · simp [parseSegment, hadv, hdone]
    · simp [parseSegment, hadv]
  have hfour (id : EntityGlobalId) : parseSegments (joined delimiter (front ++ [c₅] ++ [c₄])) 3 id =
        if c₅ = keAdvPrefix then some (5, id) else none := by
    rw [parseSegments_concat (by simpa using hpart 2) (by decide), ← hfive]
    rfl
  have hthree (id : EntityGlobalId) :
      parseSegments (joined delimiter (front ++ [c₅] ++ [c₄] ++ [c₃])) 2 id =
        (livelinessZid c₃).bind fun zid ↦
          if c₅ = keAdvPrefix then some (5, { id with zid }) else none := by
    rw [parseSegments_concat (by simpa using hpart 3) (by decide), parseSegment, if_neg (by decide),
      if_pos rfl]
    cases livelinessZid c₃ with
    | none => rfl
    | some zid => exact hfour _
  have htwo (id : EntityGlobalId) :
      parseSegments (joined delimiter (front ++ [c₅] ++ [c₄] ++ [c₃] ++ [c₂])) 1 id =
        (livelinessEid c₂).bind fun eid ↦ (livelinessZid c₃).bind fun zid ↦
          if c₅ = keAdvPrefix then some (5, ⟨zid, eid⟩) else none := by
    rw [parseSegments_concat (by simpa using hpart 4) (by decide), parseSegment, if_pos rfl]
    cases livelinessEid c₂ with
    | none => rfl
    | some eid => exact hthree _
  have hone : parseSegments
      (joined delimiter (front ++ [c₅] ++ [c₄] ++ [c₃] ++ [c₂] ++ [c₁])) 0 id =
        parseSegments (joined delimiter (front ++ [c₅] ++ [c₄] ++ [c₃] ++ [c₂])) 1 id := by
    rw [parseSegments_concat (by simpa using hfree) (by decide)]
    rfl
  have hkey : some (joinChunks (front ++ [c₅, c₄, c₃, c₂, c₁])) =
      joined delimiter (front ++ [c₅] ++ [c₄] ++ [c₃] ++ [c₂] ++ [c₁]) := by
    rw [joined_chunks (by simp)]
    simp
  rw [parseLivelinessKeyexpr, hkey, hone, htwo]
  cases livelinessEid c₂ with
  | none => rfl
  | some eid =>
    cases livelinessZid c₃ with
    | none => rfl
    | some zid =>
      by_cases hadv : c₅ = keAdvPrefix
      · simp [hadv]
      · simp [hadv]

/-! ### Detection -/

/-- The key of a publisher is read as the publisher's id, with the number 0 for timestamps. -/
def Detected (base : Bytes) (id : EntityGlobalId) (sequencing : Sequencing)
    (metadata : Option Bytes) : Prop :=
  ∃ suffix key, keSuffix id sequencing metadata = some suffix ∧
    keyexprJoin base suffix [] = some key ∧
    ∀ initial, parseLivelinessKeyexpr key initial = some ⟨id.zid, detectedEid id.eid sequencing⟩

/-- The last five chunks are as those of a suffix for the id. -/
def EndsAsSuffix (id : EntityGlobalId) (sequencing : Sequencing) (cs : List Bytes) : Prop :=
  ∃ front kind eid last, cs = front ++ [keAdvPrefix, kind, idToString id.zid, eid, last] ∧
    livelinessEid eid = some (detectedEid id.eid sequencing)

section Detection

variable {base : Bytes} {id : EntityGlobalId} {sequencing : Sequencing} {metadata : Option Bytes}

theorem exists_lastFive (h : 5 ≤ cs.length) :
    ∃ front c₅ c₄ c₃ c₂ c₁, cs = front ++ [c₅, c₄, c₃, c₂, c₁] := by
  have hlen : (cs.drop (cs.length - 5)).length = 5 := by
    rw [length_drop]
    omega
  obtain ⟨c₅, c₄, c₃, c₂, c₁, hdrop⟩ : ∃ c₅ c₄ c₃ c₂ c₁,
      cs.drop (cs.length - 5) = [c₅, c₄, c₃, c₂, c₁] := by
    rcases hcs : cs.drop (cs.length - 5) with _ | ⟨c₅, _ | ⟨c₄, _ | ⟨c₃, _ | ⟨c₂, _ | ⟨c₁, rest⟩⟩⟩⟩⟩
    all_goals rw [hcs] at hlen; simp at hlen
    exact ⟨c₅, c₄, c₃, c₂, c₁, by rw [hlen]⟩
  exact ⟨cs.take (cs.length - 5), c₅, c₄, c₃, c₂, c₁, by rw [← hdrop, take_append_drop]⟩

theorem endsAsSuffix_append {c₁ c₂ c₃ c₄ c₅ : Bytes} :
    EndsAsSuffix id sequencing (front ++ [c₅, c₄, c₃, c₂, c₁]) ↔
      c₅ = keAdvPrefix ∧ c₃ = idToString id.zid ∧
        livelinessEid c₂ = some (detectedEid id.eid sequencing) := by
  constructor
  · rintro ⟨front', kind, eid, last, heq, heid⟩
    obtain ⟨-, htail⟩ := append_inj' heq rfl
    simp only [List.cons.injEq, and_true] at htail
    obtain ⟨h₅, -, h₃, h₂, -⟩ := htail
    exact ⟨h₅, h₃, h₂ ▸ heid⟩
  · rintro ⟨rfl, rfl, heid⟩
    exact ⟨front, c₄, c₂, c₁, rfl, heid⟩

/-- Only the last five chunks of a key count. -/
theorem detected_iff_chunks (hbase : Accepted base) (hmetadata : ∀ m ∈ metadata, Accepted m)
    (hzid : idCheck id.zid = true) : Detected base id sequencing metadata ↔
      EndsAsSuffix id sequencing (detectionChunks base id sequencing metadata) := by
  have hkey : Detected base id sequencing metadata ↔
      ∀ initial, parseLivelinessKeyexpr (joinChunks (detectionChunks base id sequencing metadata))
        initial = some ⟨id.zid, detectedEid id.eid sequencing⟩ := by
    constructor
    · rintro ⟨suffix, key, hsuffix, hjoin, hread⟩
      rw [keSuffix_eq id sequencing hmetadata, some.injEq] at hsuffix
      rw [← hsuffix, keyexprJoin_suffix hbase id sequencing hmetadata, some.injEq] at hjoin
      rwa [hjoin]
    · exact fun hread ↦ ⟨_, _, keSuffix_eq id sequencing hmetadata,
        keyexprJoin_suffix hbase id sequencing hmetadata, hread⟩
  have hfree : ∀ c ∈ detectionChunks base id sequencing metadata, delimiter ∉ c := by
    intro c hc
    rcases mem_append.mp hc with hc | hc
    · exact delimiter_notMem_of_mem_chunks hc
    · rcases mem_append.mp hc with hc | hc
      · exact fun hmem ↦ ((plainChunk_suffixChunks id sequencing c hc).2 delimiter hmem).2 rfl
      · exact (metadataChunks_pass hmetadata).2.2 c hc
  have hlen : 5 ≤ (detectionChunks base id sequencing metadata).length := by
    have hpos := length_pos_iff.mpr (chunks_ne_nil base)
    simp only [detectionChunks, suffixChunks, length_append, length_cons, length_nil]
    omega
  obtain ⟨front, c₅, c₄, c₃, c₂, c₁, heq⟩ := exists_lastFive hlen
  rw [heq] at hfree hkey ⊢
  rw [hkey, endsAsSuffix_append, ← livelinessZid_eq_some_iff hzid]
  simp only [parseLivelinessKeyexpr_chunks hfree, bind_eq_some_iff,
    ite_none_right_eq_some, some.injEq, EntityGlobalId.mk.injEq]
  constructor
  · intro hread
    obtain ⟨eid, heid, zid, hzid, hadv, rfl, rfl⟩ := hread id
    exact ⟨hadv, hzid, heid⟩
  · rintro ⟨hadv, hzid, heid⟩ -
    exact ⟨_, heid, _, hzid, hadv, rfl, rfl⟩

/-- Behind a suffix, one chunk of metadata is right, two to four are wrong, and more hide the
suffix. -/
theorem endsAsSuffix_suffixChunks (heid : id.eid ≠ 0) (front : List Bytes) (hne : cs ≠ []) :
    EndsAsSuffix id sequencing (front ++ (suffixChunks id sequencing ++ cs)) ↔
      cs.length = 1 ∨ EndsAsSuffix id sequencing cs := by
  have hshort {cs : List Bytes} (hlen : cs.length < 5) : ¬ EndsAsSuffix id sequencing cs := by
    rintro ⟨front, kind, eid, last, rfl, -⟩
    simp only [length_append, length_cons, length_nil] at hlen
    omega
  by_cases hlen : 5 ≤ cs.length
  · obtain ⟨rest, c₅, c₄, c₃, c₂, c₁, rfl⟩ := exists_lastFive hlen
    rw [← append_assoc, ← append_assoc, endsAsSuffix_append, endsAsSuffix_append]
    exact (or_iff_right (by omega)).symm
  · rw [or_iff_left (hshort (by omega)), suffixChunks]
    rcases cs with _ | ⟨a, _ | ⟨b, _ | ⟨c, _ | ⟨d, cs⟩⟩⟩⟩
    · exact absurd rfl hne
    · refine iff_of_true ?_ rfl
      exact endsAsSuffix_append.mpr ⟨rfl, rfl, livelinessEid_eidText heid sequencing⟩
    · -- the last five start with the kind of the publisher
      refine iff_of_false ?_ (by simp)
      have heq : front ++ ([keAdvPrefix, kePub, idToString id.zid, eidText id.eid sequencing] ++
          [a, b]) = front ++ [keAdvPrefix] ++
            [kePub, idToString id.zid, eidText id.eid sequencing, a, b] := by simp
      rw [heq, endsAsSuffix_append]
      exact fun h ↦ absurd h.1 (by decide)
    · -- the last five start with the id
      refine iff_of_false ?_ (by simp)
      have heq : front ++ ([keAdvPrefix, kePub, idToString id.zid, eidText id.eid sequencing] ++
          [a, b, c]) = front ++ [keAdvPrefix, kePub] ++
            [idToString id.zid, eidText id.eid sequencing, a, b, c] := by simp
      rw [heq, endsAsSuffix_append]
      intro h
      have hcount := length_idToString id.zid
      rw [h.1] at hcount
      cases hcount
    · -- the last five start with the number
      have hnil : cs = [] := by
        simp only [length_cons] at hlen
        exact length_eq_zero_iff.mp (by omega)
      refine iff_of_false ?_ (by simp)
      have heq : front ++ ([keAdvPrefix, kePub, idToString id.zid, eidText id.eid sequencing] ++
          a :: b :: c :: d :: cs) = front ++ [keAdvPrefix, kePub, idToString id.zid] ++
            [eidText id.eid sequencing, a, b, c, d] := by simp [hnil]
      rw [heq, endsAsSuffix_append]
      exact fun h ↦ eidText_ne_keAdvPrefix id.eid sequencing h.1

/-- A publisher is detected if and only if its metadata is one chunk or ends as a suffix itself. -/
theorem detected_iff (hbase : Accepted base) (hmetadata : ∀ m ∈ metadata, Accepted m)
    (hzid : idCheck id.zid = true) (heid : id.eid ≠ 0) : Detected base id sequencing metadata ↔
      ∀ m ∈ metadata, (chunks m).length = 1 ∨ EndsAsSuffix id sequencing (chunks m) := by
  rw [detected_iff_chunks hbase hmetadata hzid, detectionChunks,
    endsAsSuffix_suffixChunks heid _ (metadataChunks_pass hmetadata).2.1]
  cases metadata with
  | none => exact iff_of_true (.inl rfl) (by simp)
  | some m => simp [metadataChunks]

end Detection

theorem accepted_iff {key : Bytes} : Accepted key ↔ (passState false (chunks key)).isSome :=
  keyexprIsCanon_eq_success_iff key

/-- A publisher of key 'a' with metadata 'm' is detected with its number. -/
theorem detected_single : Detected [0x61] ⟨.ofBytes [1], 7⟩ .sequenceNumber (some [0x6D]) :=
  (detected_iff (accepted_iff.mpr (by decide)) (by simpa [accepted_iff] using by decide) (by decide)
    (by decide)).mpr (by simpa using .inl (by decide))

/-- A publisher of key 'a' with metadata 'b/c' is not detected. -/
theorem not_detected_pair : Accepted [0x61] ∧ Accepted [0x62, 0x2F, 0x63] ∧
    ¬ Detected [0x61] ⟨.ofBytes [1], 7⟩ .sequenceNumber (some [0x62, 0x2F, 0x63]) := by
  have hbase : Accepted [0x61] := accepted_iff.mpr (by decide)
  have hpair : Accepted [0x62, 0x2F, 0x63] := accepted_iff.mpr (by decide)
  have hmetadata : ∀ m ∈ some [0x62, 0x2F, 0x63], Accepted m := by simpa using hpair
  refine ⟨hbase, hpair, ?_⟩
  rw [detected_iff_chunks hbase hmetadata (by decide), detectionChunks,
    endsAsSuffix_suffixChunks (by decide) _ (by decide)]
  rintro (hone | ⟨front, kind, eid, last, heq, -⟩)
  · exact absurd hone (by decide)
  · have hlen := congrArg List.length heq
    simp only [length_append, length_cons, length_nil] at hlen
    have htwo : (metadataChunks (some [0x62, 0x2F, 0x63])).length = 2 := by decide
    omega

end ZenohPico.Api
