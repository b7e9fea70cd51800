import AccelProf.Data.ByteText
import AccelProf.Data.Slices
import AccelProf.Model.LocalFs

/-! The digests an upload is checked with (`hashing.py`). -/

namespace Accel.Model
open Data

def chunkBytes : ℕ := 2 ^ 20

/-- An object of `hashlib`: updates one after another come to one update with everything. -/
structure Hasher where
  State : Type
  init : State
  update : State → Bytes → State
  digest : State → Bytes
  update_nil : ∀ s, update s [] = s
  update_append : ∀ s a b, update (update s a) b = update s (a ++ b)

/-- `sha256_hex_and_b64_of_file` of a file with this content, read chunk by chunk. -/
def sha256HexAndB64OfFile (h : Hasher) (content : Bytes) : Str × Str :=
  let digest := h.digest ((slices chunkBytes content).foldl h.update h.init)
  (hexText digest, base64Text digest)

namespace Hasher
variable (h : Hasher)

/-- The digest of all the bytes at once. -/
def hash (content : Bytes) : Bytes := h.digest (h.update h.init content)

theorem foldl_update (s : h.State) (chunks : List Bytes) :
    chunks.foldl h.update s = h.update s chunks.flatten := by
  induction chunks generalizing s with
  | nil => exact (h.update_nil s).symm
  | cons chunk chunks ih => rw [List.foldl_cons, ih, h.update_append, List.flatten_cons]

theorem sha256_eq (content : Bytes) : sha256HexAndB64OfFile h content =
    (hexText (h.hash content), base64Text (h.hash content)) := by
  have hchunks : (slices chunkBytes content).flatten = content :=
    flatten_slices (by decide) content
  show (hexText (h.digest _), base64Text (h.digest _)) = _
  rw [foldl_update, hchunks]
  rfl

end Hasher
end Accel.Model
