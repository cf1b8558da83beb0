/-!
Where the entities of a session take their messages from, and send them to
(`include/zenoh-pico/utils/locality.h`).
-/

namespace ZenohPico.Session

/-- `z_locality_t` -/
inductive Locality
  | any
  | sessionLocal
  | remote
deriving DecidableEq, Repr

/-- `_z_locality_allows_local` -/
def Locality.allowsLocal : Locality → Bool
  | .remote => false
  | _ => true

/-- `_z_locality_allows_remote` -/
def Locality.allowsRemote : Locality → Bool
  | .sessionLocal => false
  | _ => true

/-- The origins that a subscription or a queryable takes messages from -/
def Locality.allows (locality : Locality) (isRemote : Bool) : Bool :=
  if isRemote then locality.allowsRemote else locality.allowsLocal

end ZenohPico.Session
