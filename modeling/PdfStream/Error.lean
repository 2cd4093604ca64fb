import PdfStream.Crypto.Algorithm
import PdfStream.FilterKind
import PdfStream.ParamValue
import PdfStream.Text.Hex

/-!
What can go wrong, by cause. `Error.message` words every cause.
-/
namespace PdfStream

/-- Where a filter engine or a chain stands between calls. -/
inductive Phase where
  | idle | encoding | decoding | failed
  deriving DecidableEq, Repr

def Phase.name : Phase → String
  | .idle => "Idle"
  | .encoding => "Encoding"
  | .decoding => "Decoding"
  | .failed => "Failed"

/-- A session is open. -/
def Phase.isActive : Phase → Bool
  | .encoding | .decoding => true
  | .idle | .failed => false

def Direction.phase : Direction → Phase
  | .encode => .encoding
  | .decode => .decoding

def Direction.coder : Direction → String
  | .encode => "encoder"
  | .decode => "decoder"

/-- The calls a lifecycle can refuse. -/
inductive Call where
  | begin
  | block (direction : Direction)
  | finish (direction : Direction)
  | fail
  deriving DecidableEq, Repr

def Call.name : Call → String
  | .begin => "begin"
  | .block .encode => "encode_block"
  | .block .decode => "decode_block"
  | .finish .encode => "end_encode"
  | .finish .decode => "end_decode"
  | .fail => "fail"

/-- A lifecycle contract was broken. -/
inductive UsageFault where
  | engineCall (filter : FilterKind) (call : Call) (phase : Phase)
  | engineUnbound (filter : FilterKind)
  | chainBegin
  | chainCall (call : Call) (phase : Phase)
  | chainUnbound
  | lzwNotStarted (direction : Direction)
  | flateNotStarted (direction : Direction)
  | cryptNotStarted (direction : Direction)
  | cryptUnbound
  | contextTornDown
  | contextAlreadyTornDown
  | handleMismatch (handle wanted : CipherKind)
  | attributePresent (oid : Oid)
  deriving DecidableEq, Repr

def UsageFault.message : UsageFault → String
  | .engineCall filter call phase => s!"{filter.name}: {call.name} while {phase.name}"
  | .engineUnbound filter => s!"{filter.name}: no sink bound"
  | .chainBegin => "filter chain begin while active"
  | .chainCall call phase => s!"filter chain {call.name} while {phase.name}"
  | .chainUnbound => "filter chain has no sink"
  | .lzwNotStarted direction => s!"LZW {direction.coder} not started"
  | .flateNotStarted direction => s!"Flate {direction.coder} not started"
  | .cryptNotStarted direction => s!"crypt {direction.coder} not started"
  | .cryptUnbound => "crypt decoder has no cipher handle"
  | .contextTornDown => "crypto context has been torn down"
  | .contextAlreadyTornDown => "crypto context already torn down"
  | .handleMismatch handle wanted =>
    s!"{handle.name} handle cannot build a {wanted.name} cipher"
  | .attributePresent oid => s!"attribute {oid.dotted} already present"

/-- The encoded data are malformed, cut short or out of range. -/
inductive DecodeFault where
  | hexCharacter (byte : UInt8)
  | base85Overflow
  | base85LoneDigit
  | base85Close (byte : UInt8)
  | base85ZeroInGroup
  | base85Character (byte : UInt8)
  | literalCut (missing : Nat)
  | repeatCut
  | lzwCode
  | lzwCut
  | deflateCorrupt
  | deflateCut
  | pngFilter (tag : UInt8)
  | aesPartialBlock (trailing : Nat)
  | aesEmpty
  | aesPadLength (length : Nat)
  | aesPadBytes
  | aesPartialIv (length : Nat)
  deriving DecidableEq, Repr

def DecodeFault.message : DecodeFault → String
  | .hexCharacter b => s!"invalid ASCIIHex character {Hex.literal b}"
  | .base85Overflow => "ASCII85 group exceeds 2^32 - 1"
  | .base85LoneDigit => "ASCII85 final group has a single character"
  | .base85Close b => s!"ASCII85 '~' followed by {Hex.literal b} instead of '>'"
  | .base85ZeroInGroup => "ASCII85 'z' inside a group"
  | .base85Character b => s!"invalid ASCII85 character {Hex.literal b}"
  | .literalCut missing => s!"RunLength literal record truncated, {missing} bytes missing"
  | .repeatCut => "RunLength repeat record truncated before its byte"
  | .lzwCode => "LZW: invalid code in LZW stream"
  | .lzwCut => "LZW stream ended before EOD code"
  | .deflateCorrupt => "corrupt deflate stream: deflate decompression error"
  | .deflateCut => "deflate stream truncated before end marker"
  | .pngFilter tag => s!"invalid PNG row filter {tag.toNat}"
  | .aesPartialBlock trailing =>
    s!"AES ciphertext is not a whole number of blocks ({trailing} trailing bytes)"
  | .aesEmpty => "AES plaintext is empty"
  | .aesPadLength length => s!"invalid AES padding length {length}"
  | .aesPadBytes => "inconsistent AES padding bytes"
  | .aesPartialIv length => s!"AES stream shorter than its IV ({length} bytes)"

/-- A provider or a private key could not do its work. -/
inductive EngineFault where
  | providerDisabled (provider : Provider)
  | cipherUnavailable (kind : CipherKind) (provider : Provider)
  | digestUnavailable (kind : DigestKind) (provider : Provider)
  | notImplemented (kind : CipherKind) (provider : Provider)
  | privateKey
  | inputTooLong (length modulus : Nat)
  deriving DecidableEq, Repr

def EngineFault.message : EngineFault → String
  | .providerDisabled provider => s!"unable to load the {provider.name} provider"
  | .cipherUnavailable kind provider =>
    s!"cipher {kind.name} is not available from provider={provider.name}"
  | .digestUnavailable kind provider =>
    s!"digest {kind.name} is not available from provider={provider.name}"
  | .notImplemented kind provider =>
    s!"provider={provider.name} does not implement {kind.name}"
  | .privateKey => "PKCS#1 key error"
  | .inputTooLong length modulus =>
    s!"input of {length} bytes does not fit a {modulus}-byte RSA modulus"

/-- A selector, filter or parameter is not supported. -/
inductive ConfigFault where
  | unsupportedFilter (name : String)
  | keyMaterialRequired
  | unsupportedDirection (filter : FilterKind) (direction : Direction)
  | notAnInteger (key : String) (value : ParamValue)
  | notAName (key : String) (value : ParamValue)
  | pairExpected (text : String)
  | emptyKey (text : String)
  | unsupportedPredictor (predictor : Int)
  | notPositive (key : String)
  | unsupportedBits (bits : Nat)
  | unsupportedTiffBits (bits : Nat)
  | rowOverflow
  | rowTooLong (bytes limit : Nat)
  | rc4KeyLength (length : Nat)
  | aesKeyLength (length : Nat)
  | aesIvLength (length : Nat)
  | keyLength (kind : CipherKind) (length : Nat)
  | unsupportedMethod (method : String)
  | lengthMismatch (bits : Int) (key : Nat)
  | unknownAlgorithm
  | unknownAlgorithmText (text : String)
  | certificateHashLength (algorithm : HashAlgorithm) (expected got : Nat)
  deriving DecidableEq, Repr

def ConfigFault.message : ConfigFault → String
  | .unsupportedFilter name => s!"unsupported filter {name}"
  | .keyMaterialRequired =>
    "Crypt filter requires key material; build it with CryptCodec::new"
  | .unsupportedDirection filter direction =>
    s!"{filter.name} cannot be used for {direction.phase.name}"
  | .notAnInteger key value =>
    s!"decode parameter {key} must be an integer, got {value.describe}"
  | .notAName key value => s!"decode parameter {key} must be a name, got {value.describe}"
  | .pairExpected text => s!"expected Key=Value, got {Text.quote text}"
  | .emptyKey text => s!"empty parameter name in {Text.quote text}"
  | .unsupportedPredictor predictor => s!"unsupported predictor {predictor}"
  | .notPositive key => s!"decode parameter {key} must be positive"
  | .unsupportedBits bits => s!"unsupported BitsPerComponent {bits}"
  | .unsupportedTiffBits bits =>
    s!"TIFF predictor supports 8 or 16 bits per component, got {bits}"
  | .rowOverflow => "predictor row size overflows"
  | .rowTooLong bytes limit => s!"predictor row of {bytes} bytes exceeds {limit}"
  | .rc4KeyLength length => s!"RC4 key must be 1-256 bytes, got {length}"
  | .aesKeyLength length => s!"AES key must be 16 or 32 bytes, got {length}"
  | .aesIvLength length => s!"AES IV must be 16 bytes, got {length}"
  | .keyLength kind length => s!"{kind.name} does not accept a {length}-byte key"
  | .unsupportedMethod method => s!"unsupported crypt filter method {method}"
  | .lengthMismatch bits key =>
    s!"crypt filter /Length {bits} does not match a {key}-byte key"
  | .unknownAlgorithm => "unknown hashing algorithm"
  | .unknownAlgorithmText text => s!"unknown hashing algorithm {Text.quote text}"
  | .certificateHashLength algorithm expected got =>
    s!"{algorithm.name} certificate hash must be {expected} bytes, got {got}"

/-- A sink's own failure. -/
inductive IoFault where
  | writeRefused | flushRefused | nothingAccepted
  deriving DecidableEq, Repr

def IoFault.message : IoFault → String
  | .writeRefused => "sink write failed"
  | .flushRefused => "sink flush failed"
  | .nothingAccepted => "failed to write whole buffer"

/-- Why a structure has no distinguished encoding. -/
inductive DerFault where
  | malformed | timeOutOfRange | tooLong
  deriving DecidableEq, Repr

def DerFault.message : DerFault → String
  | .malformed => "malformed value"
  | .timeOutOfRange => "time out of range"
  | .tooLong => "value too long"

/-- An RSA operation on a key that is not consistent. -/
inductive RsaFault where
  | wrongResult
  deriving DecidableEq, Repr

def RsaFault.message : RsaFault → String
  | .wrongResult => "internal error"

inductive Error where
  | usage (fault : UsageFault)
  | decode (fault : DecodeFault)
  | cryptoEngine (fault : EngineFault)
  | configuration (fault : ConfigFault)
  | shortWrite (expected written : Nat)
  | io (fault : IoFault)
  | asn1 (fault : DerFault)
  | rsa (fault : RsaFault)
  deriving DecidableEq, Repr

namespace Error

def message : Error → String
  | .usage fault => s!"usage error: {fault.message}"
  | .decode fault => s!"decode error: {fault.message}"
  | .cryptoEngine fault => s!"crypto engine error: {fault.message}"
  | .configuration fault => s!"configuration error: {fault.message}"
  | .shortWrite expected written =>
    s!"short write: sink accepted {written} of {expected} bytes"
  | .io fault => s!"io error: {fault.message}"
  | .asn1 fault => s!"ASN.1 encoding error: {fault.message}"
  | .rsa fault => s!"RSA error: {fault.message}"

def IsUsage (e : Error) : Prop := ∃ fault, e = .usage fault

def IsDecode (e : Error) : Prop := ∃ fault, e = .decode fault

def IsConfiguration (e : Error) : Prop := ∃ fault, e = .configuration fault

end Error
end PdfStream
