import ZenohPico.Link.Endpoint

/-!
Which endpoints are read back from their printed text (`src/link/endpoint.c`).

The parts of a string are described by what is in front of and behind a byte;
`endpointFromString_eq` puts the searches of the source together on a string whose protocol is
known.
-/

namespace ZenohPico.Link

open Collections Protocol List Option

/-! ### Splitting at a byte -/

section Split

variable {b : UInt8} {s x y : List UInt8}

theorem memchrSplit_append (h : b ∉ x) (y : List UInt8) :
    memchrSplit b (x ++ b :: y) = some (x, y) := by
  have htake : (x ++ b :: y).take x.length = x := take_left
  have hdrop : (x ++ b :: y).drop (x.length + 1) = y := by
    rw [drop_append, drop_eq_nil_of_le (by omega)]
    simp
  rw [memchrSplit, idxOf?_append_cons h, map_some, htake, hdrop]

theorem memchrSplit_eq_none : memchrSplit b s = none ↔ b ∉ s := by
  rw [memchrSplit, map_eq_none_iff, List.idxOf?_eq_none_iff]

theorem memchrSplit_eq_some : memchrSplit b s = some (x, y) ↔ s = x ++ b :: y ∧ b ∉ x := by
  constructor
  · intro h
    have hmem : b ∈ s := by
      by_contra hnot
      rw [memchrSplit_eq_none.mpr hnot] at h
      cases h
    obtain ⟨front, rest, rfl, hfront⟩ := eq_append_cons_of_mem hmem
    rw [memchrSplit_append hfront, some_inj, Prod.mk.injEq] at h
    obtain ⟨rfl, rfl⟩ := h
    exact ⟨rfl, hfront⟩
  · rintro ⟨rfl, h⟩
    exact memchrSplit_append h y

theorem takeWhile_append_cons (h : b ∉ x) (y : List UInt8) :
    (x ++ b :: y).takeWhile (· ≠ b) = x := by
  have hall : x.takeWhile (· ≠ b) = x := by
    rw [takeWhile_eq_self_iff]
    intro c hc
    rw [decide_eq_true_eq]
    rintro rfl
    exact h hc
  rw [takeWhile_append, hall, if_pos rfl, takeWhile_cons_of_neg (by simp), append_nil]

theorem takeWhile_ne_iff : s.takeWhile (· ≠ b) = s ↔ b ∉ s := by
  rw [takeWhile_eq_self_iff]
  refine ⟨fun h hb ↦ absurd (h b hb) (by simp), fun h c hc ↦ ?_⟩
  rw [decide_eq_true_eq]
  rintro rfl
  exact h hc

theorem not_mem_takeWhile : b ∉ s.takeWhile (· ≠ b) := by
  intro h
  have := mem_takeWhile_imp h
  simp at this

theorem memchrBefore_eq : memchrBefore b s = s.takeWhile (· ≠ b) := by
  rw [memchrBefore]
  cases hsplit : memchrSplit b s with
  | none => exact (takeWhile_ne_iff.mpr (memchrSplit_eq_none.mp hsplit)).symm
  | some p =>
    obtain ⟨front, rest⟩ := p
    obtain ⟨rfl, hfront⟩ := memchrSplit_eq_some.mp hsplit
    exact (takeWhile_append_cons hfront rest).symm

end Split

/-! ### The parts of a string -/

theorem addressPart_eq (rest : List UInt8) : addressPart rest =
      if locatorMetadataSeparator ∈ rest then rest.takeWhile (· ≠ locatorMetadataSeparator)
      else rest.takeWhile (· ≠ endpointConfigSeparator) := by
  rw [addressPart]
  by_cases hmem : locatorMetadataSeparator ∈ rest
  · rw [if_pos hmem, ← memchrBefore_eq]
    cases hsplit : memchrSplit locatorMetadataSeparator rest with
    | none => exact absurd hmem (memchrSplit_eq_none.mp hsplit)
    | some p => simp only [memchrBefore, hsplit]
  · rw [if_neg hmem, memchrSplit_eq_none.mpr hmem, ← memchrBefore_eq]

theorem metadataSeparator_not_mem_addressPart (rest : List UInt8) :
    locatorMetadataSeparator ∉ addressPart rest := by
  rw [addressPart_eq]
  split_ifs with hmem
  · exact not_mem_takeWhile
  · exact fun h ↦ hmem (takeWhile_subset _ h)

/-- The metadata of a string -/
def metadataPart (str : List UInt8) : List UInt8 :=
  match memchrSplit locatorMetadataSeparator str with
  | none => []
  | some (_, rest) => rest.takeWhile (· ≠ endpointConfigSeparator)

/-- Metadata are accepted by the key and value that they begin with. -/
def MetadataAccepted (str : List UInt8) : Prop :=
  metadataPart str = [] ∨ intmapKeyValueSeparator ∈ metadataPart str

instance (str : List UInt8) : Decidable (MetadataAccepted str) :=
  inferInstanceAs (Decidable (_ ∨ _))

theorem locatorMetadataFromString_eq (str : List UInt8) : locatorMetadataFromString str =
      if MetadataAccepted str then .ok strIntmapMake else .error .configLocatorInvalid := by
  rw [locatorMetadataFromString]
  cases hsplit : memchrSplit locatorMetadataSeparator str with
  | none => rw [if_pos (.inl (by rw [metadataPart, hsplit]))]
  | some p =>
    obtain ⟨front, rest⟩ := p
    have hpart : metadataPart str = rest.takeWhile (· ≠ endpointConfigSeparator) := by
      rw [metadataPart, hsplit]
    dsimp only
    rw [memchrBefore_eq, ← hpart]
    by_cases hempty : metadataPart str = []
    · rw [if_pos hempty, if_pos (.inl hempty)]
    · rw [if_neg hempty, strIntmapFromStr_nil hempty]
      by_cases hsep : intmapKeyValueSeparator ∈ metadataPart str
      · rw [if_pos hsep, if_pos (.inr hsep)]
        rfl
      · rw [if_neg hsep, if_neg (fun h ↦ h.elim hempty hsep)]
        rfl

variable {proto str : List UInt8}

/-- A string whose protocol is known -/
theorem endpointFromString_eq (features : LinkFeatures) (hne : proto ≠ [])
    (hproto : locatorProtocolSeparator ∉ proto) (rest : List UInt8) :
    endpointFromString features (proto ++ locatorProtocolSeparator :: rest) =
      if addressPart rest ≠ [] ∧ MetadataAccepted (proto ++ locatorProtocolSeparator :: rest) then
        (endpointConfigFromString features (proto ++ locatorProtocolSeparator :: rest) proto).map
          fun config ↦ ⟨⟨proto, addressPart rest, strIntmapMake⟩, config⟩
      else .error .configLocatorInvalid := by
  have hstr : proto ++ locatorProtocolSeparator :: rest ≠ [] := by simp
  simp only [endpointFromString, locatorFromString, if_neg hstr, locatorProtocolFromString,
    locatorAddressFromString, memchrSplit_append hproto, locatorMetadataFromString_eq, if_neg hne]
  by_cases haddress : addressPart rest = []
  · have hnot : ¬(addressPart rest ≠ [] ∧
        MetadataAccepted (proto ++ locatorProtocolSeparator :: rest)) := fun h ↦ h.1 haddress
    rw [if_pos haddress, if_neg hnot]
    rfl
  by_cases hmetadata : MetadataAccepted (proto ++ locatorProtocolSeparator :: rest)
  · rw [if_neg haddress, if_pos hmetadata, if_pos ⟨haddress, hmetadata⟩]
    rfl
  · have hnot : ¬(addressPart rest ≠ [] ∧
        MetadataAccepted (proto ++ locatorProtocolSeparator :: rest)) := fun h ↦ hmetadata h.2
    rw [if_neg haddress, if_neg hmetadata, if_neg hnot]
    rfl

/-- An accepted string has a protocol. -/
theorem protocol_of_ok {features : LinkFeatures} {e : Endpoint}
    (h : endpointFromString features str = .ok e) :
    ∃ proto rest, str = proto ++ locatorProtocolSeparator :: rest ∧ proto ≠ [] ∧
      locatorProtocolSeparator ∉ proto := by
  have hempty : str ≠ [] := by
    rintro rfl
    cases h
  cases hsplit : memchrSplit locatorProtocolSeparator str with
  | none =>
    simp only [endpointFromString, locatorFromString, if_neg hempty, locatorProtocolFromString,
      hsplit] at h
    cases h
  | some p =>
    obtain ⟨proto, rest⟩ := p
    obtain ⟨hstr, hproto⟩ := memchrSplit_eq_some.mp hsplit
    refine ⟨proto, rest, hstr, ?_, hproto⟩
    rintro rfl
    simp only [endpointFromString, locatorFromString, if_neg hempty, locatorProtocolFromString,
      hsplit, if_true] at h
    cases h

/-! ### The tables -/

/-- The protocols with a configuration have none of the separators in their names. -/
theorem configTable_plain {features : LinkFeatures} (h : configTable features proto ≠ .ignored) :
    locatorMetadataSeparator ∉ proto ∧ endpointConfigSeparator ∉ proto := by
  rw [configTable] at h
  split_ifs at h with h₁ h₂ h₃ h₄ h₅ h₆ h₇ h₈
  · exact h₁.2 ▸ by decide
  · exact h₂.2 ▸ by decide
  · exact h₃.2 ▸ by decide
  · exact h₄.2 ▸ by decide
  · exact h₅.2 ▸ by decide
  · exact h₆.2 ▸ by decide
  · exact h₇.2 ▸ by decide
  · exact h₈ ▸ by decide
  · exact h₈ ▸ by decide
  · exact absurd rfl h

/-- No name of a key begins with a separator. -/
def PlainNames (argv : List StrIntmapping) : Prop :=
  ∀ mapping ∈ argv, ∃ b ∈ mapping.str.head?,
    b ≠ locatorMetadataSeparator ∧ b ≠ endpointConfigSeparator

theorem configTable_names {features : LinkFeatures} {argv : List StrIntmapping}
    (h : configTable features proto = .known argv) : PlainNames argv := by
  have htables : ∀ argv ∈ [tcpConfig, udpConfig, btConfig, serialConfig, wsConfig,
      webtransportConfig, tlsConfig, rawethConfig], PlainNames argv := by
    unfold PlainNames
    decide
  refine htables argv ?_
  rw [configTable] at h
  split_ifs at h <;> obtain rfl := ConfigTable.known.inj h <;> simp

/-! ### What is read back -/

/-- An endpoint that is read again from its text is the same in all of its parts. -/
def EndpointRoundTrips (features : LinkFeatures) (e : Endpoint) : Prop :=
  ∃ e', endpointFromString features (endpointToString features e) = .ok e' ∧
    e'.locator.protocol = e.locator.protocol ∧ e'.locator.address = e.locator.address ∧
      (∀ key, e'.locator.metadata.get key = e.locator.metadata.get key) ∧
        ∀ key, e'.config.get key = e.config.get key

/-- There is nothing to print behind the address, the address has no separator of its own, and what
follows a `?` in the protocol is accepted as metadata. -/
structure EndpointPrintable (e : Endpoint) : Prop where
  config : ∀ key, e.config.get key = none
  address : endpointConfigSeparator ∉ e.locator.address
  metadata : MetadataAccepted
    (e.locator.protocol ++ locatorProtocolSeparator :: e.locator.address)

/-- What is known of an endpoint that was read -/
structure ReadEndpoint (features : LinkFeatures) (e : Endpoint) : Prop where
  protocol_ne : e.locator.protocol ≠ []
  protocol : locatorProtocolSeparator ∉ e.locator.protocol
  address_ne : e.locator.address ≠ []
  address : locatorMetadataSeparator ∉ e.locator.address
  metadata : e.locator.metadata = strIntmapMake
  config : ∀ key, e.config.get key ≠ none → ∃ argv,
    configTable features e.locator.protocol = .known argv ∧ key ∈ argv.map StrIntmapping.key

theorem intmapExcept_eq_ok {p : IntmapResult × StrIntmap} {map : StrIntmap} :
    intmapExcept p = .ok map ↔ p = (.ok, map) := by
  obtain ⟨ret, map'⟩ := p
  cases ret <;> simp [intmapExcept]

theorem config_of_ok {features : LinkFeatures} {config : StrIntmap}
    (h : endpointConfigFromString features str proto = .ok config) {key : UInt8}
    (hkey : config.get key ≠ none) :
    ∃ argv, configTable features proto = .known argv ∧ key ∈ argv.map StrIntmapping.key := by
  rw [endpointConfigFromString] at h
  cases hsplit : memchrSplit endpointConfigSeparator str with
  | none =>
    rw [hsplit] at h
    obtain rfl := Except.ok.inj h
    exact absurd rfl hkey
  | some p =>
    obtain ⟨front, text⟩ := p
    rw [hsplit] at h
    dsimp only at h
    cases htable : configTable features proto with
    | unavailable =>
      rw [htable] at h
      cases h
    | ignored =>
      rw [htable] at h
      obtain rfl := Except.ok.inj h
      exact absurd rfl hkey
    | known argv =>
      rw [htable] at h
      refine ⟨argv, rfl, ?_⟩
      by_contra hnot
      have hget := @get_strIntmapFromStr argv text key hnot
      rw [intmapExcept_eq_ok.mp h] at hget
      exact hkey hget

theorem readEndpoint_of_ok {features : LinkFeatures} {e : Endpoint}
    (h : endpointFromString features str = .ok e) : ReadEndpoint features e := by
  obtain ⟨proto, rest, rfl, hne, hproto⟩ := protocol_of_ok h
  rw [endpointFromString_eq features hne hproto] at h
  split_ifs at h with haccepted
  cases hconfig : endpointConfigFromString features
      (proto ++ locatorProtocolSeparator :: rest) proto with
  | error err =>
    rw [hconfig] at h
    cases h
  | ok config =>
    rw [hconfig] at h
    obtain rfl := Except.ok.inj h
    exact ⟨hne, hproto, haccepted.1, metadataSeparator_not_mem_addressPart rest, rfl,
      fun key hkey ↦ config_of_ok hconfig hkey⟩

section Printed

variable {features : LinkFeatures} {e : Endpoint}

/-- The printed endpoint -/
theorem endpointToString_eq (hmetadata : e.locator.metadata = strIntmapMake) :
    endpointToString features e =
      e.locator.protocol ++ locatorProtocolSeparator :: (e.locator.address ++
        (endpointConfigToString features e.config e.locator.protocol).getD []) := by
  have hempty : strIntmapStrlen [] e.locator.metadata = 0 := by rw [hmetadata]; rfl
  rw [endpointToString, locatorToString, if_pos hempty]
  simp

/-- Without values, no configuration is printed. -/
theorem configText_of_empty (h : ∀ key, e.config.get key = none) :
    (endpointConfigToString features e.config e.locator.protocol).getD [] = [] := by
  rw [endpointConfigToString]
  cases configTable features e.locator.protocol with
  | known argv =>
    rw [getD_some, strIntmapToStr_eq]
    rcases intmapText_nil e.config argv with ⟨-, htext⟩ | ⟨mapping, -, v, tail, hget, -⟩
    · exact htext
    · rw [h] at hget
      cases hget
  | unavailable => rfl
  | ignored => rfl

/-- With a value, the printed configuration begins with a name, and no separator. -/
theorem configText_of_value (hread : ReadEndpoint features e) {key : UInt8}
    (hkey : e.config.get key ≠ none) :
    ∃ b tail, (endpointConfigToString features e.config e.locator.protocol).getD [] = b :: tail ∧
      b ≠ locatorMetadataSeparator ∧ b ≠ endpointConfigSeparator := by
  obtain ⟨argv, htable, hmem⟩ := hread.config key hkey
  rw [endpointConfigToString, htable]
  simp only [getD_some, strIntmapToStr_eq]
  rcases intmapText_nil e.config argv with ⟨hnone, -⟩ | ⟨mapping, hmapping, v, tail, -, htext⟩
  · obtain ⟨mapping, hmapping, rfl⟩ := List.mem_map.mp hmem
    exact absurd (hnone mapping hmapping) hkey
  · obtain ⟨b, hb, hplain⟩ := configTable_names htable mapping hmapping
    obtain ⟨name, hname⟩ := List.head?_eq_some_iff.mp hb
    exact ⟨b, name ++ intmapKeyValueSeparator :: tail, by rw [htext, hname]; rfl, hplain⟩

variable {address : List UInt8}

/-- An address with more bytes behind it, the first of them no separator, does not end there. -/
theorem addressPart_append_ne {b : UInt8} {tail : List UInt8}
    (haddress : locatorMetadataSeparator ∉ address) (hb : b ≠ locatorMetadataSeparator)
    (hb' : b ≠ endpointConfigSeparator) : addressPart (address ++ b :: tail) ≠ address := by
  have hlonger : ∀ sep, sep ∉ address → b ≠ sep →
      (address ++ b :: tail).takeWhile (· ≠ sep) ≠ address := by
    intro sep hsep hne heq
    have hall : address.takeWhile (· ≠ sep) = address := takeWhile_ne_iff.mpr hsep
    rw [takeWhile_append, hall, if_pos rfl, takeWhile_cons_of_pos (by simpa using hne)]
      at heq
    exact absurd (congrArg List.length heq) (by simp)
  rw [addressPart_eq]
  split_ifs with hmem
  · exact hlonger _ haddress hb
  · by_cases hsep : endpointConfigSeparator ∈ address
    · obtain ⟨front, rest, rfl, hfront⟩ := eq_append_cons_of_mem hsep
      rw [append_assoc, cons_append, takeWhile_append_cons hfront]
      intro heq
      exact absurd (congrArg List.length heq) (by simp)
    · exact hlonger _ hsep hb'

theorem addressPart_eq_self_iff (haddress : locatorMetadataSeparator ∉ address) :
    addressPart address = address ↔ endpointConfigSeparator ∉ address := by
  rw [addressPart_eq, if_neg haddress, takeWhile_ne_iff]

/-- A string without a configuration of its own: a `#` in the protocol stands for none, since the
protocol is then unknown. -/
theorem config_of_plain_address (haddress : endpointConfigSeparator ∉ address) :
    endpointConfigFromString features (proto ++ locatorProtocolSeparator :: address) proto =
      .ok strIntmapMake := by
  rw [endpointConfigFromString]
  cases hsplit : memchrSplit endpointConfigSeparator
      (proto ++ locatorProtocolSeparator :: address) with
  | none => rfl
  | some p =>
    have hproto : endpointConfigSeparator ∈ proto := by
      by_contra hnot
      have hnone : memchrSplit endpointConfigSeparator
          (proto ++ locatorProtocolSeparator :: address) = none := by
        rw [memchrSplit_eq_none, mem_append, mem_cons, not_or, not_or]
        exact ⟨hnot, by decide, haddress⟩
      rw [hnone] at hsplit
      cases hsplit
    have hignored : configTable features proto = .ignored := by
      by_contra hne
      exact (configTable_plain hne).2 hproto
    dsimp only
    rw [hignored]

/-- An endpoint that was read is read back from its printed text if and only if nothing is printed
behind its address, and its parts have no separators that are taken for others. -/
theorem endpointRoundTrips_iff (features : LinkFeatures) (str : List UInt8) (e : Endpoint)
    (h : endpointFromString features str = .ok e) :
    EndpointRoundTrips features e ↔ EndpointPrintable e := by
  have hread := readEndpoint_of_ok h
  rw [EndpointRoundTrips, endpointToString_eq hread.metadata,
    endpointFromString_eq features hread.protocol_ne hread.protocol]
  constructor
  · rintro ⟨e', hback, -, haddress, -, -⟩
    split_ifs at hback with haccepted
    have hpart : addressPart (e.locator.address ++
        (endpointConfigToString features e.config e.locator.protocol).getD []) =
          e.locator.address := by
      cases hconfig : endpointConfigFromString features
          (e.locator.protocol ++ locatorProtocolSeparator :: (e.locator.address ++
            (endpointConfigToString features e.config e.locator.protocol).getD []))
              e.locator.protocol with
      | error err =>
        rw [hconfig] at hback
        cases hback
      | ok config =>
        rw [hconfig] at hback
        obtain rfl := Except.ok.inj hback
        exact haddress
    have hempty : ∀ key, e.config.get key = none := by
      intro key
      by_contra hkey
      obtain ⟨b, tail, htext, hb, hb'⟩ := configText_of_value hread hkey
      rw [htext] at hpart
      exact addressPart_append_ne hread.address hb hb' hpart
    rw [configText_of_empty hempty, append_nil] at hpart haccepted
    exact ⟨hempty, (addressPart_eq_self_iff hread.address).mp hpart, haccepted.2⟩
  · rintro ⟨hempty, haddress, hmetadata⟩
    have hpart := (addressPart_eq_self_iff hread.address).mpr haddress
    rw [configText_of_empty hempty, append_nil, hpart,
      if_pos ⟨hread.address_ne, hmetadata⟩, config_of_plain_address haddress]
    exact ⟨_, rfl, rfl, rfl, fun key ↦ by rw [hread.metadata], fun key ↦ (hempty key).symm⟩

end Printed

/-- The protocols of a build with TCP only -/
def tcpOnly : LinkFeatures :=
  { tcp := true, udp := false, bluetooth := false, serial := false, ws := false,
    webtransport := false, tls := false, raweth := false }

/-- An endpoint with metadata and a configuration, neither of which is stored: the key is unknown. -/
theorem endpointRoundTrips_tcp : EndpointRoundTrips tcpOnly
      { locator :=
          { protocol := literal "tcp", address := literal "a:1", metadata := strIntmapMake }
        config := strIntmapMake } :=
  (endpointRoundTrips_iff tcpOnly (literal "tcp/a:1?m=1#none=1") _ (by rfl)).mpr
    ⟨fun _ ↦ rfl, by decide, by decide⟩

/-- `tcp/a#tout=1` is printed as `tcp/atout=1`. -/
theorem endpointToString_config : ∃ e, endpointFromString tcpOnly (literal "tcp/a#tout=1") = .ok e ∧
    ¬EndpointRoundTrips tcpOnly e := by
  refine ⟨⟨⟨literal "tcp", literal "a", strIntmapMake⟩,
    strIntmapMake.insert 0x01 (literal "1") true⟩, ?_, ?_⟩
  · rfl
  · rintro ⟨e', hback, -, haddress, -⟩
    have hread : endpointFromString tcpOnly (literal "tcp/atout=1") = .ok
        ⟨⟨literal "tcp", literal "atout=1", strIntmapMake⟩, strIntmapMake⟩ := by rfl
    have htext : endpointToString tcpOnly ⟨⟨literal "tcp", literal "a", strIntmapMake⟩,
        strIntmapMake.insert 0x01 (literal "1") true⟩ = literal "tcp/atout=1" := by decide
    rw [htext, hread] at hback
    obtain rfl := Except.ok.inj hback
    exact absurd haddress (by decide)

end ZenohPico.Link
