import CacheControl.Auth

/-!
# Cache identity

What must match for state to be reusable: the execution, the partition,
exactness, the namespaces and every content of the prefix.
-/

open PyText

namespace CacheControl

variable [Runtime]

/-- The encoded strings, each behind its length in octets. -/
def encodeFrames : List Str → Except PyError Bytes
  | [] => pure []
  | s :: ss => do
      let raw ← encode s
      let rest ← encodeFrames ss
      pure (byteLength.frame raw ++ rest)

def namespaceDigest (present : List Str) : Except PyError (Option Str) :=
  if present = [] then pure none
  else do
    let data ← encodeFrames present
    pure (some (Runtime.sha256 data))

def namespaceIdentity (namespaces : List (Option Str)) : Except PyError (Option Str) :=
  namespaceDigest namespaces.reduceOption

structure Execution where
  model : Str
  tokenizerRev : Str

def encodeField (name : String) (value : Str) : Except PyError Bytes :=
  encode (lit name ++ lit "=" ++ value ++ lit "\x00")

/-- Key for the prefix ending at the last supplied fragment. -/
def cacheKey (execution : Execution) (contents namespaces : List Str) (partition : Str)
    (exact : Bool) : Except PyError Str := do
  let model ← encodeField "model" execution.model
  let tokenizerRev ← encodeField "tokenizer_rev" execution.tokenizerRev
  let partition ← encodeField "partition" partition
  let exact ← encodeField "exact" (if exact then lit "True" else lit "False")
  let identity ← namespaceIdentity (namespaces.map some)
  let ns ← encodeField "ns" (identity.getD (lit "None"))
  let contents ← encodeFrames contents
  pure (Runtime.sha256 (model ++ tokenizerRev ++ partition ++ exact ++ ns ++ contents))

end CacheControl
