import ZenohPico.Protocol.StrIntmapText

/-!
Endpoints (`src/link/endpoint.c`), with memory for everything.

An endpoint is read by searches of their own for its parts: the protocol ends at the first `/`, the
address at the first `?` behind it or, where there is none, at the first `#`, the metadata lie
between the first `?` of the whole string and the next `#`, and the configuration is behind the
first `#` of the whole string. The printed endpoint has no `#` in front of its configuration:
`endpointRoundTrips_iff` says which endpoints are read back nevertheless.
-/

namespace ZenohPico.Link

open Collections Protocol

/-- The bytes of a string literal -/
def literal (s : String) : List UInt8 := s.toList.map fun c ↦ c.toNat.toUInt8

/-- `LOCATOR_PROTOCOL_SEPARATOR` -/
def locatorProtocolSeparator : UInt8 := 0x2f

/-- `LOCATOR_METADATA_SEPARATOR` -/
def locatorMetadataSeparator : UInt8 := 0x3f

/-- `ENDPOINT_CONFIG_SEPARATOR` -/
def endpointConfigSeparator : UInt8 := 0x23

/-- What is in front of the byte that `memchr` finds, and what is behind it -/
def memchrSplit (b : UInt8) (s : List UInt8) : Option (List UInt8 × List UInt8) :=
  (s.idxOf? b).map fun i ↦ (s.take i, s.drop (i + 1))

/-- What is in front of the byte that `memchr` finds, or everything -/
def memchrBefore (b : UInt8) (s : List UInt8) : List UInt8 :=
  match memchrSplit b s with
  | some (front, _) => front
  | none => s

/-- The results other than `_Z_RES_OK` of reading an endpoint -/
inductive EndpointError
  | configLocatorInvalid
  | configInvalidValue
  | systemOutOfMemory
  | transportNotAvailable
deriving DecidableEq, Repr

/-- `_z_locator_t` -/
structure Locator where
  protocol : List UInt8
  address : List UInt8
  metadata : StrIntmap

/-- `_z_endpoint_t` -/
structure Endpoint where
  locator : Locator
  config : StrIntmap

/-! ### The configurations of the protocols -/

/-- `TCP_CONFIG_MAPPING_BUILD` -/
def tcpConfig : List StrIntmapping := [⟨0x01, literal "tout"⟩]

/-- `UDP_CONFIG_MAPPING_BUILD` -/
def udpConfig : List StrIntmapping :=
  [⟨0x01, literal "iface"⟩, ⟨0x02, literal "tout"⟩, ⟨0x03, literal "join"⟩]

/-- `BT_CONFIG_MAPPING_BUILD` -/
def btConfig : List StrIntmapping :=
  [⟨0x01, literal "mode"⟩, ⟨0x02, literal "profile"⟩, ⟨0x03, literal "tout"⟩]

/-- `SERIAL_CONFIG_MAPPING_BUILD` -/
def serialConfig : List StrIntmapping := [⟨0x01, literal "baudrate"⟩]

/-- `WS_CONFIG_MAPPING_BUILD` -/
def wsConfig : List StrIntmapping := [⟨0x01, literal "tout"⟩]

/-- `WEBTRANSPORT_CONFIG_MAPPING_BUILD` -/
def webtransportConfig : List StrIntmapping := [⟨0x01, literal "tout"⟩]

/-- `TLS_CONFIG_MAPPING_BUILD` -/
def tlsConfig : List StrIntmapping :=
  [⟨0x01, literal "root_ca_certificate"⟩, ⟨0x02, literal "root_ca_certificate_base64"⟩,
    ⟨0x03, literal "listen_private_key"⟩, ⟨0x04, literal "listen_private_key_base64"⟩,
    ⟨0x05, literal "listen_certificate"⟩, ⟨0x06, literal "listen_certificate_base64"⟩,
    ⟨0x07, literal "enable_mtls"⟩, ⟨0x08, literal "connect_private_key"⟩,
    ⟨0x09, literal "connect_private_key_base64"⟩, ⟨0x0a, literal "connect_certificate"⟩,
    ⟨0x0b, literal "connect_certificate_base64"⟩, ⟨0x0c, literal "verify_name_on_connect"⟩]

/-- `RAWETH_CONFIG_MAPPING_BUILD` -/
def rawethConfig : List StrIntmapping :=
  [⟨0x01, literal "iface"⟩, ⟨0x02, literal "ethtype"⟩, ⟨0x03, literal "mapping"⟩,
    ⟨0x04, literal "whitelist"⟩]

/-- The `Z_FEATURE_LINK_*` flags, and the one of the raw ethernet transport -/
structure LinkFeatures where
  tcp : Bool
  udp : Bool
  bluetooth : Bool
  serial : Bool
  ws : Bool
  webtransport : Bool
  tls : Bool
  raweth : Bool

/-- What is known about the configuration of a protocol -/
inductive ConfigTable
  | known (argv : List StrIntmapping)
  | unavailable
  | ignored

/-- The dispatch on the protocol, which `_z_endpoint_config_from_string` and
`_z_endpoint_config_to_string` have in common. Without raw ethernet its configuration is refused. -/
def configTable (features : LinkFeatures) (proto : List UInt8) : ConfigTable :=
  if features.tcp ∧ proto = literal "tcp" then .known tcpConfig
  else if features.udp ∧ proto = literal "udp" then .known udpConfig
  else if features.bluetooth ∧ proto = literal "bt" then .known btConfig
  else if features.serial ∧ proto = literal "serial" then .known serialConfig
  else if features.ws ∧ proto = literal "ws" then .known wsConfig
  else if features.webtransport ∧ proto = literal "webtransport" then .known webtransportConfig
  else if features.tls ∧ proto = literal "tls" then .known tlsConfig
  else if proto = literal "reth" then
    if features.raweth then .known rawethConfig else .unavailable
  else .ignored

/-! ### Reading -/

/-- The result of a list that was read -/
def intmapExcept : IntmapResult × StrIntmap → Except EndpointError StrIntmap
  | (.ok, map) => .ok map
  | (.configInvalidValue, _) => .error .configInvalidValue
  | (.systemOutOfMemory, _) => .error .systemOutOfMemory

/-- `_z_locator_protocol_from_string` -/
def locatorProtocolFromString (str : List UInt8) : Except EndpointError (List UInt8) :=
  match memchrSplit locatorProtocolSeparator str with
  | none => .error .configLocatorInvalid
  | some (protocol, _) => if protocol = [] then .error .configLocatorInvalid else .ok protocol

/-- What is in front of the end of the address -/
def addressPart (rest : List UInt8) : List UInt8 :=
  match memchrSplit locatorMetadataSeparator rest with
  | some (address, _) => address
  | none => memchrBefore endpointConfigSeparator rest

/-- `_z_locator_address_from_string` -/
def locatorAddressFromString (str : List UInt8) : Except EndpointError (List UInt8) :=
  match memchrSplit locatorProtocolSeparator str with
  | none => .error .configLocatorInvalid
  | some (_, rest) =>
    if addressPart rest = [] then .error .configLocatorInvalid else .ok (addressPart rest)

/-- `_z_locator_metadata_from_string`. No metadata are known so far. -/
def locatorMetadataFromString (str : List UInt8) : Except EndpointError StrIntmap :=
  match memchrSplit locatorMetadataSeparator str with
  | none => .ok strIntmapMake
  | some (_, rest) =>
    let metadata := memchrBefore endpointConfigSeparator rest
    if metadata = [] then .ok strIntmapMake
    else
      match intmapExcept (strIntmapFromStr [] metadata) with
      | .error .configInvalidValue => .error .configLocatorInvalid
      | result => result

/-- `_z_locator_from_string` -/
def locatorFromString (str : List UInt8) : Except EndpointError Locator := do
  if str = [] then throw .configLocatorInvalid
  let protocol ← locatorProtocolFromString str
  let address ← locatorAddressFromString str
  let metadata ← locatorMetadataFromString str
  return { protocol, address, metadata }

/-- `_z_endpoint_config_from_string` -/
def endpointConfigFromString (features : LinkFeatures) (str proto : List UInt8) :
    Except EndpointError StrIntmap :=
  match memchrSplit endpointConfigSeparator str with
  | none => .ok strIntmapMake
  | some (_, config) =>
    match configTable features proto with
    | .known argv => intmapExcept (strIntmapFromStr argv config)
    | .unavailable => .error .transportNotAvailable
    | .ignored => .ok strIntmapMake

/-- `_z_endpoint_from_string` -/
def endpointFromString (features : LinkFeatures) (str : List UInt8) :
    Except EndpointError Endpoint := do
  let locator ← locatorFromString str
  let config ← endpointConfigFromString features str locator.protocol
  return { locator, config }

/-! ### Printing -/

/-- `_z_locator_to_string`. No metadata are known so far, so that their text is empty. -/
def locatorToString (l : Locator) : List UInt8 :=
  l.protocol ++ locatorProtocolSeparator :: l.address ++
    if strIntmapStrlen [] l.metadata = 0 then []
    else locatorMetadataSeparator :: strIntmapToStr [] l.metadata

/-- `_z_endpoint_config_to_string` -/
def endpointConfigToString (features : LinkFeatures) (s : StrIntmap) (proto : List UInt8) :
    Option (List UInt8) :=
  match configTable features proto with
  | .known argv => some (strIntmapToStr argv s)
  | .unavailable => none
  | .ignored => none

/-- `_z_endpoint_to_string` -/
def endpointToString (features : LinkFeatures) (endpoint : Endpoint) : List UInt8 :=
  locatorToString endpoint.locator ++
    (endpointConfigToString features endpoint.config endpoint.locator.protocol).getD []

end ZenohPico.Link
