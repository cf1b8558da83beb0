import ZenohPico.Collections.JsonEncoder

/-!
Runs of the JSON encoder.

A builder makes a value out of the same calls and writes no text. The encoder accepts no call that
the builder does not, `finish` gives a text of the builder's value, and a refused call changes
nothing (`Between.describes_iff`). The exception is a start at the greatest depth inside an array,
which is refused behind the separator.
-/

open List

namespace ZenohPico.Collections

open Foundations JsonEncoder

/-! ### What the calls describe -/

/-- An array or an object that is not complete, the object with a key that waits for its value -/
inductive JsonCtx
  | array (items : List Json)
  | object (members : List (List Char × Json)) (key : Option (List Char))

/-- The open arrays and objects, the innermost one first, and the value once it is complete -/
structure JsonBuilder where
  ctxs : List JsonCtx
  root : Option Json

namespace JsonBuilder

/-- Nothing is described yet. -/
def fresh : JsonBuilder := ⟨[], none⟩

/-- A value may follow. -/
def ready (b : JsonBuilder) : Bool :=
  match b.ctxs with
  | [] => b.root.isNone
  | .array _ :: _ => true
  | .object _ key :: _ => key.isSome

/-- A value is put where the builder is. -/
def place (b : JsonBuilder) (v : Json) : Option JsonBuilder :=
  match b.ctxs with
  | [] => if b.root.isNone then some ⟨[], some v⟩ else none
  | .array items :: ctxs => some ⟨.array (items ++ [v]) :: ctxs, b.root⟩
  | .object members (some key) :: ctxs =>
    some ⟨.object (members ++ [(key, v)]) none :: ctxs, b.root⟩
  | .object _ none :: _ => none

/-- An array or an object begins. -/
def begin (b : JsonBuilder) (ctx : JsonCtx) : Option JsonBuilder :=
  if b.ready then some ⟨ctx :: b.ctxs, b.root⟩ else none

/-- The innermost object is complete. -/
def endObject (b : JsonBuilder) : Option JsonBuilder :=
  match b.ctxs with
  | .object members none :: ctxs => place ⟨ctxs, b.root⟩ (.object members)
  | _ => none

/-- The innermost array is complete. -/
def endArray (b : JsonBuilder) : Option JsonBuilder :=
  match b.ctxs with
  | .array items :: ctxs => place ⟨ctxs, b.root⟩ (.array items)
  | _ => none

/-- The key of the next member -/
def key (b : JsonBuilder) (key : List Char) : Option JsonBuilder :=
  match b.ctxs with
  | .object members none :: ctxs => some ⟨.object members (some key) :: ctxs, b.root⟩
  | _ => none

/-- What a call adds, with the value that `finish` takes -/
def call (b : JsonBuilder) : JsonCall → Option (Option Json × JsonBuilder)
  | .startObject => (b.begin (.object [] none)).map (none, ·)
  | .endObject => b.endObject.map (none, ·)
  | .startArray => (b.begin (.array [])).map (none, ·)
  | .endArray => b.endArray.map (none, ·)
  | .writeKey key => (b.key key.val).map (none, ·)
  | .writeString value => (b.place (.string value.val)).map (none, ·)
  | .writeZString value => (b.place (.string value.val)).map (none, ·)
  | .writeZSlice value => (b.place (.string (hexText value))).map (none, ·)
  | .writeI64 value => (b.place (.number value.toInt)).map (none, ·)
  | .writeU64 value => (b.place (.number value.toNat)).map (none, ·)
  | .writeBoolean value => (b.place (.bool value)).map (none, ·)
  | .writeNull => (b.place .null).map (none, ·)
  | .finish => if b.ctxs.isEmpty then b.root.map fun v ↦ (some v, fresh) else none

end JsonBuilder

/-- What is promised of a run: a call that succeeds is one of the builder's, the bytes it gives are
a text of the builder's value, and a call that is refused leaves everything as it was. -/
def Describes : JsonEncoder → JsonBuilder → List JsonCall → Prop
  | _, _, [] => True
  | je, b, c :: calls =>
    let r := je.call c
    if r.1 = .ok then
      ∃ v b', b.call c = some (v, b') ∧ Option.Rel Denotes v r.2.1 ∧ Describes r.2.2 b' calls
    else r.2 = (none, je) ∧ Describes je b calls

/-- The depth is the greatest, and the innermost frame is an array. -/
def JsonEncoder.FullArray (je : JsonEncoder) : Prop :=
  jsonMaxDepth ≤ je.stk.length ∧ je.stk.head?.map JsonFrame.kind = some .arr

/-- The call starts an object or an array. -/
def JsonCall.starts : JsonCall → Bool
  | .startObject | .startArray => true
  | _ => false

/-- No object or array is started at the greatest depth inside an array. -/
def Shallow (je : JsonEncoder) (c : JsonCall) : Prop := c.starts = true → ¬ je.FullArray

/-- Each call of a run meets a condition on the encoder it finds. -/
def JsonEncoder.Along (P : JsonEncoder → JsonCall → Prop) (je : JsonEncoder) : List JsonCall → Prop
  | [] => True
  | c :: calls => P je c ∧ Along P (je.call c).2.2 calls

/-! ### The text behind the encoder's frames -/

/-- Texts of the members of an object -/
def AreMembers (members : List (List Char × Json)) (texts : List (List UInt8)) : Prop :=
  ∃ keys values, List.Forall₂ IsString (members.map Prod.fst) keys ∧
    List.Forall₂ Denotes (members.map Prod.snd) values ∧ texts = List.zipWith memberText keys values

/-- What was written, when the text of a value may follow -/
inductive Waiting : List JsonFrame → List JsonCtx → List UInt8 → Prop
  | root : Waiting [] [] []
  | array {frames : List JsonFrame} {ctxs : List JsonCtx} {text : List UInt8} {items : List Json}
      {texts : List (List UInt8)} (h : Waiting frames ctxs text)
      (hitems : List.Forall₂ Denotes items texts) :
      Waiting (⟨.arr, false, false⟩ :: frames) (.array items :: ctxs) (text ++ 0x5b :: commas texts)
  | object {frames : List JsonFrame} {ctxs : List JsonCtx} {text : List UInt8}
      {members : List (List Char × Json)} {texts : List (List UInt8)} {key : List Char}
      {keyText : List UInt8} (h : Waiting frames ctxs text) (hmembers : AreMembers members texts)
      (hkey : IsString key keyText) :
      Waiting (⟨.obj, true, false⟩ :: frames) (.object members (some key) :: ctxs)
        (text ++ 0x7b :: (commas texts ++ (keyText ++ [0x3a])))

/-- The encoder between two calls -/
inductive Between : JsonEncoder → JsonBuilder → Prop
  | fresh : Between .empty .fresh
  | complete {v : Json} {text : List UInt8} (h : Denotes v text) :
      Between ⟨text, [], true⟩ ⟨[], some v⟩
  | array {frames : List JsonFrame} {ctxs : List JsonCtx} {text : List UInt8} {items : List Json}
      {texts : List (List UInt8)} (h : Waiting frames ctxs text)
      (hitems : List.Forall₂ Denotes items texts) :
      Between ⟨text ++ 0x5b :: [0x2c].intercalate texts, ⟨.arr, false, texts.isEmpty⟩ :: frames,
        false⟩ ⟨.array items :: ctxs, none⟩
  | object {frames : List JsonFrame} {ctxs : List JsonCtx} {text : List UInt8}
      {members : List (List Char × Json)} {texts : List (List UInt8)}
      (h : Waiting frames ctxs text) (hmembers : AreMembers members texts) :
      Between ⟨text ++ 0x7b :: [0x2c].intercalate texts, ⟨.obj, false, texts.isEmpty⟩ :: frames,
        false⟩ ⟨.object members none :: ctxs, none⟩
  | key {frames : List JsonFrame} {ctxs : List JsonCtx} {text : List UInt8}
      {members : List (List Char × Json)} {key : List Char}
      (h : Waiting frames (.object members (some key) :: ctxs) text) :
      Between ⟨text, frames, false⟩ ⟨.object members (some key) :: ctxs, none⟩

theorem AreMembers.nil : AreMembers [] [] := ⟨[], [], .nil, .nil, rfl⟩

variable {members : List (List Char × Json)} {texts : List (List UInt8)} {text : List UInt8}

theorem AreMembers.concat {key : List Char} {v : Json} {keyText : List UInt8}
    (h : AreMembers members texts) (hkey : IsString key keyText) (hv : Denotes v text) :
    AreMembers (members ++ [(key, v)]) (texts ++ [memberText keyText text]) := by
  obtain ⟨keys, values, hkeys, hvalues, rfl⟩ := h
  refine ⟨keys ++ [keyText], values ++ [text], ?_, ?_, ?_⟩
  · rw [map_append]
    exact rel_append hkeys (.cons hkey .nil)
  · rw [map_append]
    exact rel_append hvalues (.cons hv .nil)
  · have hlen : keys.length = values.length := by
      rw [← hkeys.length_eq, ← hvalues.length_eq, length_map, length_map]
    rw [zipWith_append hlen]
    rfl

theorem AreMembers.denotes (h : AreMembers members texts) :
    Denotes (.object members) (0x7b :: ([0x2c].intercalate texts ++ [0x7d])) := by
  obtain ⟨keys, values, hkeys, hvalues, rfl⟩ := h
  exact .object hkeys hvalues

/-- Behind the text of a value -/
theorem Waiting.finishValue {frames : List JsonFrame} {ctxs : List JsonCtx} {t : List UInt8}
    {v : Json} (h : Waiting frames ctxs text) (hv : Denotes v t) :
    ∃ je b, JsonEncoder.finishValue ⟨text ++ t, frames, false⟩ = (.ok, je) ∧
      JsonBuilder.place ⟨ctxs, none⟩ v = some b ∧ Between je b := by
  cases h with
  | root => exact ⟨_, _, rfl, rfl, .complete hv⟩
  | @array frames ctxs text items texts h hitems =>
    refine ⟨_, _, rfl, rfl, ?_⟩
    have hbetween := Between.array h (rel_append hitems (.cons hv .nil))
    rw [← commas_append, ← cons_append, ← append_assoc] at hbetween
    have hmore : (texts ++ [t]).isEmpty = false := by simp
    rwa [hmore] at hbetween
  | @object frames ctxs text members texts key keyText h hmembers hkey =>
    refine ⟨_, _, rfl, rfl, ?_⟩
    have hbetween := Between.object h (hmembers.concat hkey hv)
    have hmore : (texts ++ [memberText keyText t]).isEmpty = false := by simp
    rw [← commas_append, hmore] at hbetween
    simpa [memberText] using hbetween

variable {je : JsonEncoder} {b : JsonBuilder}

/-- In front of a value -/
theorem Between.beforeValue (h : Between je b) (hallowed : je.valueAllowed = true) :
    ∃ text frames, je.beforeValue = (.ok, ⟨text, frames, false⟩) ∧
      Waiting frames b.ctxs text ∧ b.root = none ∧ b.ready = true ∧
      frames.length = je.stk.length ∧ (je.stk.head?.map JsonFrame.kind ≠ some .arr →
        (⟨text, frames, false⟩ : JsonEncoder) = je) := by
  cases h with
  | fresh => exact ⟨[], [], rfl, .root, rfl, rfl, rfl, fun _ ↦ rfl⟩
  | complete hv => simp [valueAllowed] at hallowed
  | @array frames ctxs text items texts h hitems =>
    refine ⟨_, _, ?_, .array h hitems, rfl, rfl, rfl, fun hobj ↦ absurd rfl hobj⟩
    cases texts with
    | nil => rfl
    | cons t texts =>
      have hcommas := intercalate_append_comma (cons_ne_nil t texts)
      rw [← hcommas, ← cons_append, ← append_assoc]
      rfl
  | object h hmembers => simp [valueAllowed] at hallowed
  | @key frames ctxs text members key h =>
    have hwaiting := h
    cases h with
    | object h hmembers hkey => exact ⟨_, _, rfl, hwaiting, rfl, rfl, rfl, fun _ ↦ rfl⟩

/-! ### One call -/

/-- A call succeeds as the builder's does, or it changes nothing. -/
def Agrees (je : JsonEncoder) (r : JsonRes × JsonEncoder) (built : Option JsonBuilder) : Prop :=
  (∃ je' b', r = (.ok, je') ∧ built = some b' ∧ Between je' b') ∨ r.1 ≠ .ok ∧ r.2 = je

theorem agrees_invalid (je : JsonEncoder) (built : Option JsonBuilder) :
    Agrees je (.invalid, je) built := .inr ⟨JsonRes.noConfusion, rfl⟩

theorem Between.writeValue (h : Between je b) {v : Json} {t : List UInt8} (hv : Denotes v t)
    {write : JsonEncoder → JsonRes × JsonEncoder}
    (hwrite : ∀ je : JsonEncoder, write je = (.ok, je.putsn t)) :
    Agrees je (je.writeValue write) (b.place v) := by
  unfold JsonEncoder.writeValue
  split_ifs with hallowed
  · exact agrees_invalid _ _
  · obtain ⟨text, frames, hbefore, hwaiting, hroot, -⟩ :=
      h.beforeValue (Bool.eq_true_of_not_eq_false hallowed)
    obtain ⟨je', b', hfinish, hplace, hbetween⟩ := hwaiting.finishValue hv
    refine .inl ⟨je', b', ?_, ?_, hbetween⟩
    · rw [hbefore, returnIfErr, if_pos rfl, hwrite, returnIfErr, if_pos rfl]
      exact hfinish
    · rw [← hplace, ← hroot]

/-- A start below the greatest depth, or inside an object -/
theorem Between.start (h : Between je b) {kind : JsonCtxKind} {bracket : UInt8} {ctx : JsonCtx}
    (hshallow : ¬ je.FullArray) (hopen : ∀ text frames, Waiting frames b.ctxs text →
      Between ⟨text ++ [bracket], ⟨kind, false, true⟩ :: frames, false⟩ ⟨ctx :: b.ctxs, none⟩) :
    Agrees je (je.start kind bracket) (b.begin ctx) := by
  unfold JsonEncoder.start
  split_ifs with hallowed
  · exact agrees_invalid _ _
  · obtain ⟨text, frames, hbefore, hwaiting, hroot, hready, hlen, hsame⟩ :=
      h.beforeValue (Bool.eq_true_of_not_eq_false hallowed)
    rw [hbefore, returnIfErr, if_pos rfl, push]
    by_cases hdepth : jsonMaxDepth ≤ frames.length
    · refine .inr ?_
      rw [if_pos hdepth]
      exact ⟨JsonRes.noConfusion, hsame fun harr ↦ hshallow ⟨hlen ▸ hdepth, harr⟩⟩
    · refine .inl ⟨_, _, ?_, ?_, hopen text frames hwaiting⟩
      · rw [if_neg hdepth]
        rfl
      · rw [JsonBuilder.begin, if_pos hready, hroot]

theorem Between.startObject (h : Between je b) (hshallow : ¬ je.FullArray) :
    Agrees je je.startObject (b.begin (.object [] none)) := by
  refine h.start hshallow fun text frames hwaiting ↦ ?_
  have hbetween := Between.object hwaiting .nil
  exact hbetween

theorem Between.startArray (h : Between je b) (hshallow : ¬ je.FullArray) :
    Agrees je je.startArray (b.begin (.array [])) := by
  refine h.start hshallow fun text frames hwaiting ↦ ?_
  have hbetween := Between.array hwaiting .nil
  exact hbetween

theorem Between.endObject (h : Between je b) : Agrees je je.endObject b.endObject := by
  cases h with
  | fresh => exact agrees_invalid _ _
  | complete hv => exact agrees_invalid _ _
  | array h hitems => exact agrees_invalid _ _
  | @object frames ctxs text members texts h hmembers =>
    obtain ⟨je', b', hfinish, hplace, hbetween⟩ := h.finishValue hmembers.denotes
    refine .inl ⟨je', b', ?_, hplace, hbetween⟩
    rw [← hfinish, ← cons_append, ← append_assoc]
    rfl
  | key h =>
    cases h with
    | object h hmembers hkey => exact agrees_invalid _ _

theorem Between.endArray (h : Between je b) : Agrees je je.endArray b.endArray := by
  cases h with
  | fresh => exact agrees_invalid _ _
  | complete hv => exact agrees_invalid _ _
  | @array frames ctxs text items texts h hitems =>
    obtain ⟨je', b', hfinish, hplace, hbetween⟩ := h.finishValue (.array hitems)
    refine .inl ⟨je', b', ?_, hplace, hbetween⟩
    rw [← hfinish, ← cons_append, ← append_assoc]
    rfl
  | object h hmembers => exact agrees_invalid _ _
  | key h =>
    cases h with
    | object h hmembers hkey => exact agrees_invalid _ _

theorem Between.writeKey (h : Between je b) (key : JsonText) :
    Agrees je (je.writeKey key.utf8) (b.key key.val) := by
  unfold JsonEncoder.writeKey
  split_ifs with hdepth
  · exact agrees_invalid _ _
  cases h with
  | fresh => exact absurd rfl hdepth
  | complete hv => exact absurd rfl hdepth
  | array h hitems => exact agrees_invalid _ _
  | @object frames ctxs text members texts h hmembers =>
    refine .inl ⟨_, _, ?_, rfl, .key (.object h hmembers (isString_quoted key))⟩
    rw [cString_utf8]
    cases texts with
    | nil =>
      simp only [beforeKey, separate, returnIfErr, writeEscapedString_eq, putc, putsn]
      simp [commas]
    | cons t texts =>
      have hcommas := intercalate_append_comma (cons_ne_nil t texts)
      rw [← hcommas]
      simp only [beforeKey, separate, returnIfErr, writeEscapedString_eq, putc, putsn]
      simp
  | key h =>
    cases h with
    | object h hmembers hkey => exact agrees_invalid _ _

/-- The same of a call that may give bytes -/
def Follows (je : JsonEncoder) (r : JsonRes × Option (List UInt8) × JsonEncoder)
    (built : Option (Option Json × JsonBuilder)) : Prop :=
  (∃ v out je' b', r = (.ok, out, je') ∧ built = some (v, b') ∧ Option.Rel Denotes v out ∧
    Between je' b') ∨ r.1 ≠ .ok ∧ r.2 = (none, je)

theorem Agrees.quiet {r : JsonRes × JsonEncoder} {built : Option JsonBuilder}
    (h : Agrees je r built) : Follows je (quiet r) (built.map (none, ·)) := by
  rcases h with ⟨je', b', rfl, rfl, hbetween⟩ | ⟨hres, hsame⟩
  · exact .inl ⟨none, none, je', b', rfl, rfl, .none, hbetween⟩
  · exact .inr ⟨hres, by rw [JsonEncoder.quiet, hsame]⟩

theorem Between.finish (h : Between je b) : Follows je je.finish (b.call .finish) := by
  cases h with
  | complete hv => exact .inl ⟨_, _, _, _, rfl, rfl, .some hv, .fresh⟩
  | fresh => exact .inr ⟨JsonRes.noConfusion, rfl⟩
  | array h hitems => exact .inr ⟨JsonRes.noConfusion, rfl⟩
  | object h hmembers => exact .inr ⟨JsonRes.noConfusion, rfl⟩
  | key h =>
    cases h with
    | object h hmembers hkey => exact .inr ⟨JsonRes.noConfusion, rfl⟩

theorem putNumber_eq (h : 0 < text.length ∧ text.length < 32) (je : JsonEncoder) :
    putNumber text je = (.ok, je.putsn text) := by
  rw [putNumber, if_neg (by omega)]

theorem Between.call {je : JsonEncoder} {b : JsonBuilder} (h : Between je b) (c : JsonCall)
    (hshallow : Shallow je c) : Follows je (je.call c) (b.call c) := by
  cases c with
  | startObject => exact (h.startObject (hshallow rfl)).quiet
  | endObject => exact h.endObject.quiet
  | startArray => exact (h.startArray (hshallow rfl)).quiet
  | endArray => exact h.endArray.quiet
  | writeKey key => exact (h.writeKey key).quiet
  | writeString value =>
    refine (h.writeValue (.string (isString_quoted value)) fun je ↦ ?_).quiet
    rw [cString_utf8, writeEscapedString_eq]
  | writeZString value =>
    refine (h.writeValue (.string (isString_quoted value)) fun je ↦ ?_).quiet
    rw [writeEscapedString_eq]
  | writeZSlice value =>
    refine (h.writeValue (.string (isString_hexText value)) fun je ↦ ?_).quiet
    rw [foldl_putsn, putc, putc, putsn_putsn, putsn_putsn, quoted, singleton_append]
  | writeI64 value =>
    exact (h.writeValue (.number (isNumber_signedText value))
      (putNumber_eq (length_signedText value))).quiet
  | writeU64 value =>
    exact (h.writeValue (.number (isNumber_decimal value.toNat))
      (putNumber_eq (length_decimal_toNat value))).quiet
  | writeBoolean value =>
    cases value with
    | false => exact (h.writeValue .false fun _ ↦ rfl).quiet
    | true => exact (h.writeValue .true fun _ ↦ rfl).quiet
  | writeNull => exact (h.writeValue .null fun _ ↦ rfl).quiet
  | finish => exact h.finish

/-- The separator, or the mark of the first element, changes the encoder. -/
theorem exists_separate {frame : JsonFrame} {stk : List JsonFrame} (h : je.stk = frame :: stk) :
    ∃ je', je.separate frame stk = (.ok, je') ∧ je' ≠ je ∧ je'.stk.length = je.stk.length := by
  unfold separate
  split_ifs with hfirst
  · refine ⟨_, rfl, fun heq ↦ ?_, rfl⟩
    have hlen := congrArg (List.length ∘ bw) heq
    simp [putc, putsn] at hlen
  · refine ⟨_, rfl, fun heq ↦ ?_, by rw [h]; rfl⟩
    have hstk := (congrArg JsonEncoder.stk heq).trans h
    exact hfirst (congrArg JsonFrame.first (List.cons.inj hstk).1).symm

/-- A start at the greatest depth inside an array is refused, and the encoder is not what it
was. -/
theorem JsonEncoder.FullArray.start (h : je.FullArray) (kind : JsonCtxKind) (bracket : UInt8) :
    (je.start kind bracket).1 ≠ .ok ∧ (je.start kind bracket).2 ≠ je := by
  obtain ⟨hdepth, harr⟩ := h
  cases hstk : je.stk with
  | nil => simp [hstk] at harr
  | cons frame stk =>
    have hkind : frame.kind = .arr := by simpa [hstk] using harr
    obtain ⟨je', hseparate, hne, hlen⟩ := exists_separate hstk
    have hallowed : je.valueAllowed = true := by simp [valueAllowed, hstk, hkind]
    have hbefore : je.beforeValue = (.ok, je') := by
      rw [← hseparate, beforeValue]
      simp only [hstk, hkind]
    rw [JsonEncoder.start, if_neg (by rw [hallowed]; decide), hbefore, returnIfErr, if_pos rfl,
      push, if_pos (hlen ▸ hdepth)]
    exact ⟨JsonRes.noConfusion, hne⟩

theorem call_of_not_shallow {c : JsonCall} (h : ¬ Shallow je c) :
    (je.call c).1 ≠ .ok ∧ (je.call c).2.2 ≠ je := by
  obtain ⟨hstarts, hfull⟩ := Classical.not_imp.mp h
  have hfull := Classical.not_not.mp hfull
  cases c with
  | startObject => exact hfull.start _ _
  | startArray => exact hfull.start _ _
  | _ => exact absurd hstarts Bool.false_ne_true

/-! ### Runs -/

theorem Between.describes_iff (h : Between je b) (calls : List JsonCall) :
    Describes je b calls ↔ je.Along Shallow calls := by
  induction calls generalizing je b with
  | nil => exact Iff.rfl
  | cons c calls ih =>
    rw [Describes, Along]
    by_cases hshallow : Shallow je c
    · rcases h.call c hshallow with ⟨v, out, je', b', hcall, hbuilt, hrel, hbetween⟩ | ⟨hres, hsame⟩
      · rw [hcall, hbuilt]
        dsimp only
        rw [if_pos rfl, ← ih hbetween]
        refine ⟨fun ⟨v', b'', heq, _, hrest⟩ ↦ ⟨hshallow, ?_⟩,
          fun hrest ↦ ⟨v, b', rfl, hrel, hrest.2⟩⟩
        cases heq
        exact hrest
      · rw [if_neg hres, hsame, ← ih h]
        exact ⟨fun hrest ↦ ⟨hshallow, hrest.2⟩, fun hrest ↦ ⟨rfl, hrest.2⟩⟩
    · obtain ⟨hres, hchanged⟩ := call_of_not_shallow hshallow
      rw [if_neg hres]
      exact ⟨fun hrest ↦ absurd (congrArg Prod.snd hrest.1) hchanged,
        fun hrest ↦ absurd hrest.1 hshallow⟩

/-- A run of a new encoder is as promised if and only if no object or array is started at the
greatest depth inside an array: the calls that succeed describe a value, `finish` gives a text of
it, and a refused call changes nothing. -/
theorem jsonEncoder_describes_iff (calls : List JsonCall) :
    Describes .empty .fresh calls ↔ JsonEncoder.empty.Along Shallow calls :=
  Between.fresh.describes_iff calls

instance (je : JsonEncoder) : Decidable je.FullArray := inferInstanceAs (Decidable (_ ∧ _))

instance (je : JsonEncoder) (c : JsonCall) : Decidable (Shallow je c) :=
  inferInstanceAs (Decidable (_ → _))

instance decidableAlong (je : JsonEncoder) : ∀ calls, Decidable (je.Along Shallow calls)
  | [] => inferInstanceAs (Decidable True)
  | c :: calls =>
    have := decidableAlong (je.call c).2.2 calls
    inferInstanceAs (Decidable (Shallow je c ∧ Along Shallow (je.call c).2.2 calls))

/-- Sixteen arrays with a null in the innermost, and a start that is refused -/
theorem jsonEncoder_start_refused : ¬ ∀ calls, Describes .empty .fresh calls := by
  intro h
  have hdescribes := h (List.replicate 16 .startArray ++ [.writeNull, .startArray])
  rw [Between.fresh.describes_iff] at hdescribes
  exact absurd hdescribes (by decide)

end ZenohPico.Collections
