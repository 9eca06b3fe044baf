import Euxis.Bytes

/-!
# SBOM documents: `libs/sbom/include/euxis/sbom/types.hpp`

The external references, the CPE and the licence link of a component are left out: nothing here
reads them.
-/

namespace Euxis.Sbom

inductive ComponentType where
  | application
  | framework
  | library
  | container
  | platform
  | operatingSystem
  | device
  | firmware
  | file
  | machineLearningModel
  | data
  deriving DecidableEq, Repr

inductive HashAlgorithm where
  | md5
  | sha1
  | sha256
  | sha384
  | sha512
  | sha3With256
  | sha3With512
  | blake2bWith256
  | blake2bWith512
  | blake3
  deriving DecidableEq, Repr

def hashAlgSpdx : HashAlgorithm → Bytes
  | .md5 => ascii "MD5"
  | .sha1 => ascii "SHA1"
  | .sha256 => ascii "SHA256"
  | .sha384 => ascii "SHA384"
  | .sha512 => ascii "SHA512"
  | .sha3With256 => ascii "SHA3-256"
  | .sha3With512 => ascii "SHA3-512"
  | .blake2bWith256 => ascii "BLAKE2b-256"
  | .blake2bWith512 => ascii "BLAKE2b-512"
  | .blake3 => ascii "BLAKE3"

structure Hash where
  algorithm : HashAlgorithm := .sha256
  value : Bytes := []
  deriving DecidableEq, Repr

structure Component where
  bomRef : Bytes := []
  purl : Bytes := []
  name : Bytes := []
  version : Bytes := []
  type : ComponentType := .library
  supplier : Bytes := []
  publisher : Bytes := []
  description : Bytes := []
  /-- The SPDX expressions of the licences. -/
  licenses : List Bytes := []
  hashes : List Hash := []
  properties : List (Bytes × Bytes) := []
  deriving DecidableEq, Repr

structure Dependency where
  ref : Bytes
  dependsOn : List Bytes
  deriving DecidableEq, Repr

structure Tool where
  vendor : Bytes
  name : Bytes
  version : Bytes
  deriving DecidableEq, Repr

structure SbomDocument where
  documentNamespace : Bytes := ascii "https://euxis.co/sbom"
  serialNumber : Bytes := []
  root : Option Component := none
  components : List Component := []
  dependencies : List Dependency := []
  tools : List Tool := []
  createdAt : Int := 0
  properties : List (Bytes × Bytes) := []
  deriving DecidableEq, Repr

end Euxis.Sbom
