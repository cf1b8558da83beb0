import ZenohPico.Link.EndpointText

/-!
The strings that are accepted as endpoints (`src/link/endpoint.c`).

Metadata are not interpreted, and a configuration is read up to its first unknown key. Where no
separator stands in a later part than its own (`PlainEndpoint`), the searches for the parts agree,
and what is accepted is a grammar (`endpointFromString_grammar`).
-/

open List Option

namespace ZenohPico.Link

open Collections Protocol

/-- The parts of an endpoint as they are written, and the values of its configuration -/
structure EndpointParts where
  protocol : List UInt8
  address : List UInt8
  metadata : Option (List UInt8)
  config : Option (List UInt8)
  values : List (UInt8 × List UInt8)

namespace EndpointParts

/-- What is written behind the address -/
def tail (parts : EndpointParts) : List UInt8 :=
  parts.metadata.elim [] (locatorMetadataSeparator :: ·) ++
    parts.config.elim [] (endpointConfigSeparator :: ·)

def text (parts : EndpointParts) : List UInt8 :=
  parts.protocol ++ locatorProtocolSeparator :: (parts.address ++ parts.tail)

/-- No part has a separator that would end it. -/
structure Delimited (parts : EndpointParts) : Prop where
  protocol_ne : parts.protocol ≠ []
  protocol : locatorProtocolSeparator ∉ parts.protocol
  address_ne : parts.address ≠ []
  address : locatorMetadataSeparator ∉ parts.address ∧ endpointConfigSeparator ∉ parts.address
  metadata : ∀ m ∈ parts.metadata, endpointConfigSeparator ∉ m

end EndpointParts

/-- A configuration as it is written, with the values of its keys up to the first unknown one -/
inductive ConfigList (argv : List StrIntmapping) : List UInt8 → List (UInt8 × List UInt8) → Prop
  | empty : ConfigList argv [] []
  | unknown {name tail : List UInt8} : intmapKeyValueSeparator ∉ name → keyOf argv name = none →
    ConfigList argv (name ++ intmapKeyValueSeparator :: tail) []
  | last {name value : List UInt8} {key : UInt8} : intmapKeyValueSeparator ∉ name →
    keyOf argv name = some key → intmapListSeparator ∉ value →
    ConfigList argv (name ++ intmapKeyValueSeparator :: value) [(key, value)]
  | more {name value rest : List UInt8} {key : UInt8} {values : List (UInt8 × List UInt8)} :
    intmapKeyValueSeparator ∉ name → keyOf argv name = some key → intmapListSeparator ∉ value →
    rest ≠ [] → ConfigList argv rest values →
    ConfigList argv (name ++ intmapKeyValueSeparator :: (value ++ intmapListSeparator :: rest))
      ((key, value) :: values)

/-- The values of a configuration, by what is known about the protocol -/
def ConfigAccepted (features : LinkFeatures) (parts : EndpointParts) : Prop :=
  match parts.config with
  | none => parts.values = []
  | some config =>
    match configTable features parts.protocol with
    | .known argv => ConfigList argv config parts.values
    | .unavailable => False
    | .ignored => parts.values = []

/-- The strings that are accepted, with their parts -/
structure EndpointGrammar (features : LinkFeatures) (str : List UInt8) (parts : EndpointParts) :
    Prop where
  text : str = parts.text
  delimited : parts.Delimited
  metadata : ∀ m ∈ parts.metadata, m = [] ∨ intmapKeyValueSeparator ∈ m
  config : ConfigAccepted features parts

/-- An endpoint has these parts. -/
structure EndpointIs (e : Endpoint) (parts : EndpointParts) : Prop where
  protocol : e.locator.protocol = parts.protocol
  address : e.locator.address = parts.address
  metadata : ∀ key, e.locator.metadata.get key = none
  config : ∀ key, e.config.get key = latestValue parts.values key

/-- No separator stands where it belongs to a part that is searched for elsewhere: there is none in
front of the address, no `?` in the configuration, and no `;` at its end. -/
structure PlainEndpoint (str : List UInt8) : Prop where
  string : 0 ∉ str
  protocol : ∀ proto rest, str = proto ++ locatorProtocolSeparator :: rest →
    locatorProtocolSeparator ∉ proto →
      locatorMetadataSeparator ∉ proto ∧ endpointConfigSeparator ∉ proto
  config : ∀ front config, str = front ++ endpointConfigSeparator :: config →
    endpointConfigSeparator ∉ front →
      locatorMetadataSeparator ∉ config ∧ config.getLast? ≠ some intmapListSeparator

/-! ### Configurations -/

/-- The end of a value, where the list does not end with a separator -/
theorem valueSplit_of_plain {tail : List UInt8} (hlast : tail.getLast? ≠ some intmapListSeparator) :
    intmapListSeparator ∉ tail ∧ valueSplit tail = (tail, []) ∨
      ∃ value rest, tail = value ++ intmapListSeparator :: rest ∧ intmapListSeparator ∉ value ∧
        rest ≠ [] ∧ valueSplit tail = (value, rest) := by
  by_cases hsep : intmapListSeparator ∈ tail
  · obtain ⟨value, rest, rfl, hvalue⟩ := eq_append_cons_of_mem hsep
    have hrest : rest ≠ [] := by
      rintro rfl
      simp at hlast
    exact .inr ⟨value, rest, rfl, hvalue, hrest, valueSplit_append hvalue hrest⟩
  · exact .inl ⟨hsep, valueSplit_last hsep⟩

variable {argv : List StrIntmapping} {config : List UInt8} {values : List (UInt8 × List UInt8)}

theorem values_of_reads_nil {ret : IntmapResult} (h : IntmapReads argv config values ret)
    (hnil : config = []) : values = [] := by
  cases h with
  | empty => rfl
  | malformed => rfl
  | unknown => rfl
  | known => exact absurd hnil (by simp)

theorem configList_of_reads {ret : IntmapResult} (h : IntmapReads argv config values ret)
    (hret : ret = .ok) (hstring : 0 ∉ config) (hlast : config.getLast? ≠ some intmapListSeparator) :
    ConfigList argv config values := by
  induction h with
  | empty => exact .empty
  | malformed => cases hret
  | unknown hname hkey => exact .unknown hname hkey
  | @known name tail key values ret hname hkey hreads ih =>
    have htail : tail.getLast? ≠ some intmapListSeparator := by
      intro h
      rw [List.getLast?_append, List.getLast?_cons, h] at hlast
      simp at hlast
    rcases valueSplit_of_plain htail with
      ⟨hfree, hsplit⟩ | ⟨value, rest, rfl, hvalue, hrest, hsplit⟩
    · rw [hsplit] at hreads ⊢
      rw [values_of_reads_nil hreads rfl, strNCopy_of_free (by simp_all)]
      exact .last hname hkey hfree
    · rw [hsplit] at ih ⊢
      rw [strNCopy_of_free (by simp_all)]
      refine .more hname hkey hvalue hrest (ih hret (by simp_all) fun h ↦ htail ?_)
      rw [List.getLast?_append, List.getLast?_cons, h]
      simp

theorem reads_of_configList (h : ConfigList argv config values) (hstring : 0 ∉ config) :
    IntmapReads argv config values .ok := by
  induction h with
  | empty => exact .empty
  | unknown hname hkey => exact .unknown hname hkey
  | @last name value key hname hkey hvalue =>
    have hreads : IntmapReads argv (valueSplit value).2 [] .ok := by
      rw [valueSplit_last hvalue]
      exact .empty
    have hknown := IntmapReads.known hname hkey hreads
    rwa [valueSplit_last hvalue, strNCopy_of_free (by simp_all)] at hknown
  | @more name value rest key values hname hkey hvalue hrest _ ih =>
    have hreads : IntmapReads argv (valueSplit (value ++ intmapListSeparator :: rest)).2 values
        .ok := by
      rw [valueSplit_append hvalue hrest]
      exact ih (by simp_all)
    have hknown := IntmapReads.known hname hkey hreads
    rwa [valueSplit_append hvalue hrest, strNCopy_of_free (by simp_all)] at hknown

/-! ### The parts of a string -/

section Parts

variable {parts : EndpointParts}

theorem metadataSeparator_not_mem_tail (hmetadata : parts.metadata = none)
    (hconfig : ∀ config ∈ parts.config, locatorMetadataSeparator ∉ config) :
    locatorMetadataSeparator ∉ parts.tail := by
  rw [EndpointParts.tail, hmetadata]
  cases hc : parts.config with
  | none => simp
  | some config =>
    rw [elim_none, nil_append, elim_some, mem_cons, not_or]
    exact ⟨by decide, hconfig config hc⟩

theorem tail_of_metadata {m : List UInt8} (hm : parts.metadata = some m) :
    parts.tail = locatorMetadataSeparator ::
      (m ++ parts.config.elim [] (endpointConfigSeparator :: ·)) := by
  rw [EndpointParts.tail, hm]
  rfl

theorem addressPart_text
    (haddress : locatorMetadataSeparator ∉ parts.address ∧ endpointConfigSeparator ∉ parts.address)
    (hconfig : ∀ config ∈ parts.config, locatorMetadataSeparator ∉ config) :
    addressPart (parts.address ++ parts.tail) = parts.address := by
  rw [addressPart_eq]
  cases hm : parts.metadata with
  | some m =>
    rw [tail_of_metadata hm, if_pos (by simp), takeWhile_append_cons haddress.1]
  | none =>
    have hnot : locatorMetadataSeparator ∉ parts.address ++ parts.tail := by
      rw [mem_append, not_or]
      exact ⟨haddress.1, metadataSeparator_not_mem_tail hm hconfig⟩
    rw [if_neg hnot, EndpointParts.tail, hm]
    cases parts.config with
    | none =>
      simp only [elim_none, append_nil]
      exact takeWhile_ne_iff.mpr haddress.2
    | some config => exact takeWhile_append_cons haddress.2 config

theorem metadataPart_text (hdelimited : parts.Delimited)
    (hproto : locatorMetadataSeparator ∉ parts.protocol)
    (hconfig : ∀ config ∈ parts.config, locatorMetadataSeparator ∉ config) :
    metadataPart parts.text = parts.metadata.getD [] := by
  have hfront : locatorMetadataSeparator ∉
      parts.protocol ++ locatorProtocolSeparator :: parts.address := by
    rw [mem_append, mem_cons, not_or, not_or]
    exact ⟨hproto, by decide, hdelimited.address.1⟩
  have htext : parts.text =
      (parts.protocol ++ locatorProtocolSeparator :: parts.address) ++ parts.tail := by
    simp [EndpointParts.text]
  cases hm : parts.metadata with
  | none =>
    have hnone : locatorMetadataSeparator ∉ parts.text := by
      rw [htext, mem_append, not_or]
      exact ⟨hfront, metadataSeparator_not_mem_tail hm hconfig⟩
    rw [metadataPart, memchrSplit_eq_none.mpr hnone]
    rfl
  | some m =>
    have hplain := hdelimited.metadata m hm
    rw [metadataPart, htext, tail_of_metadata hm, memchrSplit_append hfront]
    cases parts.config with
    | none =>
      simp only [elim_none, append_nil, getD_some]
      exact takeWhile_ne_iff.mpr hplain
    | some config => exact takeWhile_append_cons hplain config

theorem configSplit_text (hdelimited : parts.Delimited)
    (hproto : endpointConfigSeparator ∉ parts.protocol) :
    (memchrSplit endpointConfigSeparator parts.text).map Prod.snd = parts.config := by
  have hfront : endpointConfigSeparator ∉ parts.protocol ++ locatorProtocolSeparator ::
      (parts.address ++ parts.metadata.elim [] (locatorMetadataSeparator :: ·)) := by
    rw [mem_append, mem_cons, mem_append, not_or, not_or, not_or]
    refine ⟨hproto, by decide, hdelimited.address.2, ?_⟩
    cases hm : parts.metadata with
    | none => simp
    | some m =>
      rw [elim_some, mem_cons, not_or]
      exact ⟨by decide, hdelimited.metadata m hm⟩
  have htext : parts.text = (parts.protocol ++ locatorProtocolSeparator ::
      (parts.address ++ parts.metadata.elim [] (locatorMetadataSeparator :: ·))) ++
        parts.config.elim [] (endpointConfigSeparator :: ·) := by
    simp [EndpointParts.text, EndpointParts.tail]
  rw [htext]
  cases parts.config with
  | none =>
    simp only [elim_none, append_nil]
    rw [memchrSplit_eq_none.mpr hfront]
    rfl
  | some config =>
    simp only [elim_some]
    rw [memchrSplit_append hfront]
    rfl

/-- Behind a protocol there are always parts, up to the address, which may be empty. -/
theorem exists_parts {proto rest : List UInt8} (haddress : addressPart rest ≠ [])
    (hne : proto ≠ []) (hproto : locatorProtocolSeparator ∉ proto)
    (hconfig : ∀ front config, rest = front ++ endpointConfigSeparator :: config →
      endpointConfigSeparator ∉ front → locatorMetadataSeparator ∉ config) :
    ∃ parts : EndpointParts, proto ++ locatorProtocolSeparator :: rest = parts.text ∧
      parts.Delimited ∧ parts.protocol = proto := by
  obtain ⟨loc, config, hrest, hloc, hplain⟩ : ∃ loc config,
      rest = loc ++ Option.elim config [] (endpointConfigSeparator :: ·) ∧
        endpointConfigSeparator ∉ loc ∧ ∀ c ∈ config, locatorMetadataSeparator ∉ c := by
    by_cases hsep : endpointConfigSeparator ∈ rest
    · obtain ⟨loc, config, rfl, hloc⟩ := eq_append_cons_of_mem hsep
      refine ⟨loc, some config, rfl, hloc, fun c hc ↦ ?_⟩
      obtain rfl := some.inj hc
      exact hconfig loc config rfl hloc
    · exact ⟨rest, none, (append_nil rest).symm, hsep, fun c hc ↦ by cases hc⟩
  obtain ⟨address, metadata, hlocator, haddr⟩ : ∃ address metadata,
      loc = address ++ Option.elim metadata [] (locatorMetadataSeparator :: ·) ∧
        locatorMetadataSeparator ∉ address := by
    by_cases hsep : locatorMetadataSeparator ∈ loc
    · obtain ⟨address, metadata, rfl, haddr⟩ := eq_append_cons_of_mem hsep
      exact ⟨address, some metadata, rfl, haddr⟩
    · exact ⟨loc, none, (append_nil loc).symm, hsep⟩
  have hfree := hlocator ▸ hloc
  rw [mem_append, not_or] at hfree
  have htail : address ++ EndpointParts.tail ⟨proto, address, metadata, config, []⟩ = rest := by
    rw [hrest, hlocator, EndpointParts.tail, append_assoc]
  refine ⟨⟨proto, address, metadata, config, []⟩, by rw [EndpointParts.text, htail],
    ⟨hne, hproto, ?_, ⟨haddr, hfree.1⟩, fun m hm hmem ↦ hfree.2 ?_⟩, rfl⟩
  · have hpart := @addressPart_text ⟨proto, address, metadata, config, []⟩ ⟨haddr, hfree.1⟩ hplain
    rw [htail] at hpart
    exact hpart ▸ haddress
  · obtain rfl : metadata = some m := hm
    exact mem_cons_of_mem _ hmem

end Parts

/-! ### Acceptance -/

section Accepted

variable {features : LinkFeatures} {parts : EndpointParts}

/-- The separators that stand in front of the address or behind a `#` are no others. -/
structure PlainParts (parts : EndpointParts) : Prop where
  string : ∀ config ∈ parts.config, 0 ∉ config
  protocol : locatorMetadataSeparator ∉ parts.protocol ∧ endpointConfigSeparator ∉ parts.protocol
  config : ∀ config ∈ parts.config, locatorMetadataSeparator ∉ config
  last : ∀ config ∈ parts.config, config.getLast? ≠ some intmapListSeparator

theorem plainParts {parts : EndpointParts} (h : PlainEndpoint parts.text)
    (hdelimited : parts.Delimited) : PlainParts parts := by
  have hproto := h.protocol _ _ rfl hdelimited.protocol
  have hsplit := configSplit_text hdelimited hproto.2
  have hconfig : ∀ config ∈ parts.config, 0 ∉ config ∧ locatorMetadataSeparator ∉ config ∧
      config.getLast? ≠ some intmapListSeparator := by
    intro config hc
    rw [← hsplit] at hc
    obtain ⟨⟨front, behind⟩, hsome, rfl⟩ := map_eq_some_iff.mp hc
    obtain ⟨htext, hfront⟩ := memchrSplit_eq_some.mp hsome
    refine ⟨fun hmem ↦ h.string ?_, h.config front behind htext hfront⟩
    rw [htext]
    exact mem_append_right _ (mem_cons_of_mem _ hmem)
  exact ⟨fun c hc ↦ (hconfig c hc).1, hproto, fun c hc ↦ (hconfig c hc).2.1,
    fun c hc ↦ (hconfig c hc).2.2⟩

/-- The configuration that is read of the parts -/
def configResult (features : LinkFeatures) (parts : EndpointParts) :
    Except EndpointError StrIntmap :=
  match parts.config with
  | none => .ok strIntmapMake
  | some config =>
    match configTable features parts.protocol with
    | .known argv => intmapExcept (strIntmapFromStr argv config)
    | .unavailable => .error .transportNotAvailable
    | .ignored => .ok strIntmapMake

theorem endpointFromString_text {e : Endpoint} (hdelimited : parts.Delimited)
    (hplain : PlainParts parts) : endpointFromString features parts.text = .ok e ↔
      (∀ m ∈ parts.metadata, m = [] ∨ intmapKeyValueSeparator ∈ m) ∧
        ∃ config, configResult features parts = .ok config ∧
          e = ⟨⟨parts.protocol, parts.address, strIntmapMake⟩, config⟩ := by
  have haddress := addressPart_text hdelimited.address hplain.config
  have hconfig : endpointConfigFromString features parts.text parts.protocol =
      configResult features parts := by
    rw [configResult, ← configSplit_text hdelimited hplain.protocol.2, endpointConfigFromString]
    cases memchrSplit endpointConfigSeparator parts.text <;> rfl
  have hmetadata : MetadataAccepted parts.text ↔
      ∀ m ∈ parts.metadata, m = [] ∨ intmapKeyValueSeparator ∈ m := by
    rw [MetadataAccepted, metadataPart_text hdelimited hplain.protocol.1 hplain.config]
    cases parts.metadata <;> simp
  have htext := endpointFromString_eq features hdelimited.protocol_ne hdelimited.protocol
    (parts.address ++ parts.tail)
  rw [← EndpointParts.text, haddress, hconfig] at htext
  rw [htext, ← hmetadata]
  by_cases hm : MetadataAccepted parts.text
  · rw [if_pos ⟨hdelimited.address_ne, hm⟩]
    cases configResult features parts with
    | error err => simp [Except.map]
    | ok config => simp [Except.map, hm, eq_comm]
  · rw [if_neg fun h ↦ hm h.2]
    simp [hm]

/-- An accepted configuration is read with its values. -/
theorem configResult_of_accepted (hplain : PlainParts parts)
    (h : ConfigAccepted features parts) : ∃ config, configResult features parts = .ok config ∧
      ∀ key, config.get key = latestValue parts.values key := by
  rw [ConfigAccepted] at h
  rw [configResult]
  cases hc : parts.config with
  | none =>
    rw [hc] at h
    exact ⟨_, rfl, fun key ↦ by rw [h]; rfl⟩
  | some config =>
    rw [hc] at h
    dsimp only at h ⊢
    cases htable : configTable features parts.protocol with
    | unavailable =>
      rw [htable] at h
      exact h.elim
    | ignored =>
      rw [htable] at h
      exact ⟨_, rfl, fun key ↦ by rw [h]; rfl⟩
    | known argv =>
      rw [htable] at h
      have hreads := strIntmapFromStr_of_reads (reads_of_configList h (hplain.string config hc))
      refine ⟨_, intmapExcept_eq_ok.mpr hreads, fun key ↦ ?_⟩
      rw [get_insertValues, strIntmapMake, HashMap.get_make, or_none]

/-- A configuration that is read has values. -/
theorem accepted_of_configResult {config : StrIntmap} (hplain : PlainParts parts)
    (h : configResult features parts = .ok config) :
    ∃ values, ConfigAccepted features { parts with values } := by
  rw [configResult] at h
  simp only [ConfigAccepted]
  cases hc : parts.config with
  | none => exact ⟨[], rfl⟩
  | some c =>
    rw [hc] at h
    dsimp only at h ⊢
    cases htable : configTable features parts.protocol with
    | unavailable =>
      rw [htable] at h
      cases h
    | ignored => exact ⟨[], rfl⟩
    | known argv =>
      rw [htable] at h
      obtain ⟨values, ret, hreads⟩ := exists_intmapReads argv c
      have hret := (strIntmapFromStr_of_reads hreads).symm.trans (intmapExcept_eq_ok.mp h)
      exact ⟨values, configList_of_reads hreads (congrArg Prod.fst hret) (hplain.string c hc)
        (hplain.last c hc)⟩

end Accepted

/-- Where no separator stands in another part, the strings that are accepted are those of the
grammar, and the endpoint has their parts. -/
theorem endpointFromString_grammar (features : LinkFeatures) (str : List UInt8)
    (hplain : PlainEndpoint str) : ((∃ e, endpointFromString features str = .ok e) ↔
        ∃ parts, EndpointGrammar features str parts) ∧
      ∀ e parts, endpointFromString features str = .ok e → EndpointGrammar features str parts →
        EndpointIs e parts := by
  refine ⟨⟨?_, ?_⟩, ?_⟩
  · rintro ⟨e, he⟩
    obtain ⟨proto, rest, rfl, hne, hproto⟩ := protocol_of_ok he
    have haddress : addressPart rest ≠ [] := by
      rw [endpointFromString_eq features hne hproto] at he
      split_ifs at he with haccepted
      exact haccepted.1
    have hprotocol := (hplain.protocol proto rest rfl hproto).2
    have hconfig : ∀ front config, rest = front ++ endpointConfigSeparator :: config →
        endpointConfigSeparator ∉ front → locatorMetadataSeparator ∉ config := by
      rintro front config rfl hfront
      refine (hplain.config (proto ++ locatorProtocolSeparator :: front) config (by simp) ?_).1
      rw [mem_append, mem_cons, not_or, not_or]
      exact ⟨hprotocol, by decide, hfront⟩
    obtain ⟨parts, htext, hdelimited, -⟩ := exists_parts haddress hne hproto hconfig
    rw [htext] at he hplain
    have hparts := plainParts hplain hdelimited
    obtain ⟨hmetadata, config, hresult, -⟩ := (endpointFromString_text hdelimited hparts).mp he
    obtain ⟨values, haccepted⟩ := accepted_of_configResult hparts hresult
    exact ⟨{ parts with values }, htext, ⟨hdelimited.1, hdelimited.2, hdelimited.3, hdelimited.4,
      hdelimited.5⟩, hmetadata, haccepted⟩
  · rintro ⟨parts, rfl, hdelimited, hmetadata, haccepted⟩
    have hparts := plainParts hplain hdelimited
    obtain ⟨config, hresult, -⟩ := configResult_of_accepted hparts haccepted
    exact ⟨_, (endpointFromString_text hdelimited hparts).mpr
      ⟨hmetadata, config, hresult, rfl⟩⟩
  · rintro e parts he ⟨rfl, hdelimited, -, haccepted⟩
    have hparts := plainParts hplain hdelimited
    obtain ⟨-, config, hresult, rfl⟩ := (endpointFromString_text hdelimited hparts).mp he
    obtain ⟨config', hresult', hget⟩ := configResult_of_accepted hparts haccepted
    obtain rfl := Except.ok.inj (hresult.symm.trans hresult')
    exact ⟨rfl, rfl, fun _ ↦ rfl, hget⟩

/-- An endpoint with metadata and a configuration -/
def fullEndpoint : List UInt8 := literal "tcp/a?m=1#tout=1;tout=2"

theorem endpointFromString_tcp : ((∃ e, endpointFromString tcpOnly fullEndpoint = .ok e) ↔
        ∃ parts, EndpointGrammar tcpOnly fullEndpoint parts) ∧
      ∀ e parts, endpointFromString tcpOnly fullEndpoint = .ok e →
        EndpointGrammar tcpOnly fullEndpoint parts → EndpointIs e parts := by
  refine endpointFromString_grammar tcpOnly fullEndpoint ⟨by decide, ?_, ?_⟩
  · intro proto rest htext hproto
    have hsplit := memchrSplit_eq_some.mpr ⟨htext, hproto⟩
    have hread : memchrSplit locatorProtocolSeparator fullEndpoint =
        some (literal "tcp", literal "a?m=1#tout=1;tout=2") := by decide
    obtain ⟨rfl, -⟩ := Prod.mk.inj (some.inj (hsplit.symm.trans hread))
    decide
  · intro front config htext hfront
    have hsplit := memchrSplit_eq_some.mpr ⟨htext, hfront⟩
    have hread : memchrSplit endpointConfigSeparator fullEndpoint =
        some (literal "tcp/a?m=1", literal "tout=1;tout=2") := by decide
    obtain ⟨-, rfl⟩ := Prod.mk.inj (some.inj (hsplit.symm.trans hread))
    decide

/-- A grammar in which metadata and configurations are lists of keys and values, and all keys of a
configuration are known -/
structure KnownKeysGrammar (features : LinkFeatures) (str : List UInt8) (parts : EndpointParts) :
    Prop where
  text : str = parts.text
  delimited : parts.Delimited
  metadata : ∀ m ∈ parts.metadata, ∃ components, m = componentsText components false
  config : ∀ c ∈ parts.config, ∃ components, c = componentsText components false ∧
    ∀ argv, configTable features parts.protocol = .known argv →
      ∀ component ∈ components, keyOf argv component.name ≠ none

/-- The protocols of a build with UDP only -/
def udpOnly : LinkFeatures :=
  { tcp := false, udp := true, bluetooth := false, serial := false, ws := false,
    webtransport := false, tls := false, raweth := false }

/-- A configuration with an unknown key is accepted. -/
theorem endpointFromString_unknown_key :
    (∃ e, endpointFromString udpOnly (literal "udp/127.0.0.1:7447#invalid=eth0") = .ok e) ∧
      ¬∃ parts, KnownKeysGrammar udpOnly (literal "udp/127.0.0.1:7447#invalid=eth0") parts := by
  refine ⟨⟨⟨⟨literal "udp", literal "127.0.0.1:7447", strIntmapMake⟩, strIntmapMake⟩, by rfl⟩, ?_⟩
  rintro ⟨parts, htext, hdelimited, -, hconfig⟩
  have hproto : parts.protocol = literal "udp" := by
    have hsplit := memchrSplit_append hdelimited.protocol (parts.address ++ parts.tail)
    have hread : memchrSplit locatorProtocolSeparator
        (literal "udp/127.0.0.1:7447#invalid=eth0") =
          some (literal "udp", literal "127.0.0.1:7447#invalid=eth0") := by decide
    rw [← EndpointParts.text, ← htext, hread] at hsplit
    exact (Prod.mk.inj (some.inj hsplit)).1.symm
  have hc : parts.config = some (literal "invalid=eth0") := by
    have hsplit := configSplit_text hdelimited (hproto ▸ by decide)
    rw [← htext] at hsplit
    exact hsplit.symm.trans (by decide)
  obtain ⟨components, hlist, hknown⟩ := hconfig _ hc
  cases components with
  | nil => exact absurd hlist (by decide)
  | cons component rest =>
    obtain ⟨tail, hcons, -⟩ := componentsText_cons component rest false
    have hsplit := memchrSplit_append component.name_free.1 tail
    have hread : memchrSplit intmapKeyValueSeparator (literal "invalid=eth0") =
        some (literal "invalid", literal "eth0") := by decide
    rw [← hcons, ← hlist, hread] at hsplit
    have hname : literal "invalid" = component.name := (Prod.mk.inj (some.inj hsplit)).1
    refine hknown udpConfig (by rw [hproto]; rfl) component mem_cons_self ?_
    rw [← hname]
    decide

end ZenohPico.Link
