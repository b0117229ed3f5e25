import NebulaFS.Lib.LittleEndian
import NebulaFS.Platform

/-!
# The CRC-32 of zlib

`third_party/zlib/crc32.c`, as a little-endian machine without instructions for it runs it: `Nb` braids
of words of `Wb` bytes, and the tables that `make_crc_table` fills and that `crc32.h` holds. A
`z_crc_t` is a `BitVec 32` and a `z_word_t` a `BitVec (8 * Wb)`.
-/

namespace NebulaFS

namespace Crc32

open LittleEndian

/-- The macros `N` and `W`. -/
structure Braids where
  n : Nat
  w : Nat
  n_mem : 1 ≤ n ∧ n ≤ 6
  w_mem : w = 4 ∨ w = 8

abbrev Crc := BitVec 32

abbrev Word (braids : Braids) := BitVec (8 * braids.w)

/-- `POLY`. -/
def poly : Crc := 0xedb88320#32

/-! ### The tables -/

/-- `p & 1 ? (p >> 1) ^ POLY : p >> 1`. -/
def next (p : Crc) : Crc := if p &&& 1#32 ≠ 0#32 then (p >>> 1) ^^^ poly else p >>> 1

/-- The loop of `multmodp`, with `m` at bit `i - 1`. Once `m` is zero it goes on forever. -/
def multmodpLoop (a : Crc) : (i : Nat) → (b p : Crc) → Option Crc
  | 0, _, _ => none
  | i + 1, b, p =>
      let m := 1#32 <<< i
      if a &&& m ≠ 0#32 then
        if a &&& (m - 1#32) = 0#32 then some (p ^^^ b) else multmodpLoop a i (next b) (p ^^^ b)
      else multmodpLoop a i (next b) p

def multmodp (a b : Crc) : Option Crc := multmodpLoop a 32 b 0#32

/-- The loop of `x2nmodp`. -/
def x2nmodpLoop (x2nTable : List Crc) (n k : Nat) (p : Crc) : Option Crc :=
  if n = 0 then some p
  else do
    let p ← if n % 2 = 1 then multmodp (x2nTable.getD (k % 32) 0#32) p else some p
    x2nmodpLoop x2nTable (n / 2) (k + 1) p

def x2nmodp (x2nTable : List Crc) (n k : Nat) : Option Crc := x2nmodpLoop x2nTable n k (1#32 <<< 31)

structure Tables where
  crcTable : List Crc
  x2nTable : List Crc
  crcBraidTable : List (List Crc)
deriving DecidableEq

/-- The squares that follow `p`. -/
def squares : Nat → Crc → Option (List Crc)
  | 0, p => some [p]
  | n + 1, p => do
      let square ← multmodp p p
      let rest ← squares n square
      return p :: rest

def braid (x2nTable : List Crc) (n w : Nat) : Option (List (List Crc)) :=
  (List.range w).mapM fun k => do
    let p ← x2nmodp x2nTable ((n * w + 3 - k) * 8) 0
    (List.range 256).mapM fun i => if i = 0 then some 0#32 else multmodp (BitVec.ofNat 32 i <<< 24) p

def makeCrcTable (braids : Braids) : Option Tables := do
  let crcTable := (List.range 256).map fun i => next^[8] (BitVec.ofNat 32 i)
  let x2nTable ← squares 31 (1#32 <<< 30)
  let crcBraidTable ← braid x2nTable braids.n braids.w
  return { crcTable := crcTable, x2nTable := x2nTable, crcBraidTable := crcBraidTable }

/-! ### The computation -/

section

variable {braids : Braids} (tables : Tables)

def byteStep (crc : Crc) (byte : UInt8) : Crc :=
  (crc >>> 8) ^^^ tables.crcTable.getD ((crc ^^^ byte.toBitVec.setWidth 32) &&& 0xff#32).toNat 0#32

def crcWord (data : Word braids) : Crc :=
  ((fun data : Word braids =>
    (data >>> 8) ^^^ (tables.crcTable.getD (data &&& 0xff#_).toNat 0#32).setWidth _)^[braids.w]
    data).setWidth 32

/-- A word as it is read from memory. -/
def loadWord (braids : Braids) (bytes : Bytes) : Word braids := BitVec.ofNat _ (leValue bytes)

/-- What becomes of the word of one braid in one round. -/
def braidWord (word : Word braids) : Crc :=
  (List.range' 1 (braids.w - 1)).foldl
    (fun crc k => crc ^^^ (tables.crcBraidTable.getD k []).getD ((word >>> (8 * k)) &&& 0xff#_).toNat 0#32)
    ((tables.crcBraidTable.getD 0 []).getD (word &&& 0xff#_).toNat 0#32)

def round (crcs : List Crc) (words : List (Word braids)) : List Crc :=
  List.zipWith (fun crc word => braidWord tables (crc.setWidth _ ^^^ word)) crcs words

/-- The last block, where `crc` goes from braid to braid. -/
def combine (crcs : List Crc) (words : List (Word braids)) : Crc :=
  (crcs.zip words).foldl
    (fun crc (braid, word) => crcWord tables (braid.setWidth _ ^^^ word ^^^ crc.setWidth _)) 0#32

/-- `rounds` blocks and one more; `words` begins with them. -/
def braidLoop : (rounds : Nat) → (crcs : List Crc) → (words : List (Word braids)) → Crc
  | 0, crcs, words => combine tables crcs (words.take braids.n)
  | rounds + 1, crcs, words =>
      braidLoop rounds (round tables crcs (words.take braids.n)) (words.drop braids.n)

/-- Up to a word boundary, which is where `address` is when the bytes left begin. -/
def align (braids : Braids) (crc : Crc) : (address : Nat) → Bytes → Crc × Bytes
  | _, [] => (crc, [])
  | address, byte :: buf =>
      if address &&& (braids.w - 1) ≠ 0 then align braids (byteStep tables crc byte) (address + 1) buf
      else (crc, byte :: buf)

/-- The words that `bytes` begins with. -/
def loadWords (braids : Braids) : Nat → Bytes → List (Word braids)
  | 0, _ => []
  | count + 1, bytes =>
      loadWord braids (bytes.take braids.w) :: loadWords braids count (bytes.drop braids.w)

/-- `crc32_z`; `address` is where `buf` lies, and zero is no buffer. -/
def crc32z (braids : Braids) (crc : Crc) (address : Nat) (buf : Bytes) : Crc :=
  if address = 0 then 0#32
  else
    let crc := ~~~crc
    let (crc, buf) :=
      if braids.n * braids.w + braids.w - 1 ≤ buf.length then
        let (crc, buf) := align tables braids crc address buf
        let blks := buf.length / (braids.n * braids.w)
        let words := loadWords braids (blks * braids.n) buf
        (braidLoop tables (blks - 1) (crc :: List.replicate (braids.n - 1) 0#32) words,
          buf.drop (blks * braids.n * braids.w))
      else (crc, buf)
    buf.foldl (byteStep tables) crc ^^^ 0xffffffff#32

end

end Crc32

/-- The build links zlib, and hands `::crc32` the bytes where they happen to lie; an empty span may have
no address. -/
def Platform.LinksCrc32 (platform : Platform) : Prop :=
  ∀ data, ∃ braids tables address, Crc32.makeCrcTable braids = some tables
    ∧ (address = 0 → data = [])
    ∧ platform.crc32 data = UInt32.ofBitVec (Crc32.crc32z tables braids 0#32 address data)

end NebulaFS
