import NotaryModel.Common.Bundle

namespace Common

structure NotaryAttestation where
  bundle : NotaryBundle
  kCTx   : Arr 16
  kCRx   : Arr 16

-- The witness without the JSON field and its threshold.
structure TlsWitness where
  eskClient   : Arr 32
  rawInbound  : Bytes
  rawOutbound : Bytes
  hostname    : String
  notary      : Option NotaryAttestation

end Common
