import AllInOneBackup.Data.Block
import AllInOneBackup.Data.Chunked

/-! The pure Python AES modes, over any block cipher. -/

namespace AllInOneBackup.Kurigram.Aes

open Bytes

/-- The two directions of `pyaes.AES(key)` on one block. -/
structure Cipher where
  encrypt : Block 16 → Block 16
  decrypt : Block 16 → Block 16

variable (aes : Bytes → Cipher)

/-! ### `ige` -/

/-- A direction on bytes; it raises on a wrong block length. -/
def onBlock (f : Block 16 → Block 16) (bs : Bytes) : Option Bytes :=
  (Block.ofBytes bs).map fun x => (f x).toList

/-- `xor`; it raises where the number needs more bytes than `a` has. -/
def xor (a b : Bytes) : Option Bytes :=
  let n := ofBE a ^^^ ofBE b
  if n < 256 ^ a.length then some (beBytes a.length n) else none

/-- The loop of `ige` with `iv_1` and `iv_2`, over the chunks that are left. -/
def igeLoop (cipher : Cipher) (encrypt : Bool) : Bytes → Bytes → List Bytes → Option (List Bytes)
  | _, _, [] => some []
  | iv_1, iv_2, chunk :: data =>
    if encrypt then do
      let x ← xor chunk iv_1
      let y ← onBlock cipher.encrypt x
      let out ← xor y iv_2
      let data ← igeLoop cipher encrypt out chunk data
      return out :: data
    else do
      let x ← xor chunk iv_2
      let y ← onBlock cipher.decrypt x
      let out ← xor y iv_1
      let data ← igeLoop cipher encrypt chunk out data
      return out :: data

def ige (data key iv : Bytes) (encrypt : Bool) : Option Bytes :=
  (igeLoop (aes key) encrypt (iv.take 16) (iv.drop 16) (Chunked.pieces 16 data)).map List.flatten

/-! ### `ctr` -/

instance neZeroBlockSize : NeZero 16 := ⟨by decide⟩

/-- The bytearrays `iv` and `state`, which calls share; `state` is the offset in the block, at first
0, and from 16 on `ctr` would raise. -/
structure Counter where
  iv : Block 16
  state : Fin 16
  deriving DecidableEq

/-- The loop over `k`, from the byte before `k` down: 255 overflows to 0. -/
def increment : (k : ℕ) → k ≤ 16 → Block 16 → Block 16
  | 0, _, iv => iv
  | k + 1, h, iv =>
    if iv[k].toNat + 1 < 256 then iv.set k (iv[k] + 1)
    else increment k (Nat.le_of_succ_le h) (iv.set k 0)

/-- The variables of `ctr` in its loops. -/
structure Running extends Counter where
  chunk : Block 16
  out : Bytes

/-- The body of the inner loop. -/
def ctrByte (cipher : Cipher) (r : Running) (b : UInt8) : Running :=
  let out := r.out ++ [b ^^^ r.chunk[r.state]]
  let state : Fin 16 := if h : r.state.val + 1 < 16 then ⟨r.state + 1, h⟩ else 0
  if state = 0 then
    let iv := increment 16 le_rfl r.iv
    { iv, state, chunk := cipher.encrypt iv, out }
  else { r with state, out }

/-- The output, and the bytearrays after the call; `ctr256_encrypt` and `ctr256_decrypt` are both
this call. -/
def ctr (data key : Bytes) (c : Counter) : Bytes × Counter :=
  let r := (Chunked.pieces 16 data).foldl (fun r piece => piece.foldl (ctrByte (aes key)) r)
    { c with chunk := (aes key).encrypt c.iv, out := [] }
  (r.out, r.toCounter)

/-- Calls one after the other with the same bytearrays. -/
def ctrs (key : Bytes) : Counter → List Bytes → List Bytes × Counter
  | c, [] => ([], c)
  | c, data :: rest =>
    let first := ctr aes data key c
    let others := ctrs key first.2 rest
    (first.1 :: others.1, others.2)

end AllInOneBackup.Kurigram.Aes
