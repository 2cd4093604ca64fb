import PdfStream.Crypto.Handle
import PdfStream.Crypto.Entropy

/-!
The crypto context that filters and signatures share. It loads its providers on first use, at most
once, and is of no use after its teardown.
-/
namespace PdfStream

structure CryptoOptions where
  /-- Load the legacy provider, the only source of RC4. -/
  legacyProvider : Bool := true
  deriving DecidableEq, Repr

structure CryptoContext where
  options : CryptoOptions := {}
  /-- The registry, once it has been set up. -/
  registry : Option Registry := none
  tornDown : Bool := false
  /-- Successful set-ups. -/
  inits : Nat := 0
  entropy : Entropy := {}
  deriving DecidableEq

namespace CryptoContext

def isInitialized (ctx : CryptoContext) : Bool := ctx.registry.isSome && !ctx.tornDown

/-- The loaded registry, set up on the way if need be. A failed set-up leaves the context alone. -/
def load (ctx : CryptoContext) : CryptoContext × Except Error Registry :=
  if ctx.tornDown then (ctx, .error (.usage .contextTornDown))
  else
    match ctx.registry with
    | some registry => (ctx, .ok registry)
    | none =>
      match Registry.create ctx.options.legacyProvider with
      | .error e => (ctx, .error e)
      | .ok registry =>
        ({ ctx with registry := some registry, inits := ctx.inits + 1 }, .ok registry)

def init (ctx : CryptoContext) : CryptoContext × Except Error Unit :=
  let (ctx, result) := ctx.load
  (ctx, result.map fun _ => ())

def teardown (ctx : CryptoContext) : CryptoContext × Except Error Unit :=
  if ctx.tornDown then (ctx, .error (.usage .contextAlreadyTornDown))
  else ({ ctx with tornDown := true, registry := ctx.registry.map Registry.unload }, .ok ())

def selectCipher (ctx : CryptoContext) (kind : CipherKind) :
    CryptoContext × Except Error CipherHandle :=
  let (ctx, result) := ctx.load
  (ctx, result.bind (·.fetchCipher kind kind.home))

def selectDigest (ctx : CryptoContext) (kind : DigestKind) :
    CryptoContext × Except Error DigestHandle :=
  let (ctx, result) := ctx.load
  (ctx, result.bind (·.fetchDigest kind .default))

def computeKind (ctx : CryptoContext) (kind : DigestKind) (data : Bytes) :
    CryptoContext × Except Error Bytes :=
  let (ctx, result) := ctx.selectDigest kind
  (ctx, result.map (·.digest data))

/-- The hash of a signature. An unknown one is refused before anything is loaded. -/
def computeDigest (ctx : CryptoContext) (algorithm : HashAlgorithm) (data : Bytes) :
    CryptoContext × Except Error Bytes :=
  match algorithm.digestKind with
  | .error e => (ctx, .error e)
  | .ok kind => ctx.computeKind kind data

def computeMd5 (ctx : CryptoContext) (data : Bytes) : CryptoContext × Except Error Bytes :=
  ctx.computeKind .md5 data

def computeSha1 (ctx : CryptoContext) (data : Bytes) : CryptoContext × Except Error Bytes :=
  ctx.computeKind .sha1 data

/-- A fresh IV. -/
def drawIv (ctx : CryptoContext) : CryptoContext × Bytes :=
  let (entropy, iv) := ctx.entropy.draw
  ({ ctx with entropy }, iv)

end CryptoContext
end PdfStream
