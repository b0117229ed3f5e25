import NebulaFS.Checksum
import NebulaFS.Lib.LittleEndian

/-!
# The SHA-256 that is built in

`third_party/sha256/sha256.c`, which the checksum engine uses where there is no OpenSSL. The context
keeps a buffer of 64 bytes, of which the first `datalen` are pending; what lies behind them is left
over from the block before. `sha256_final` works on the context itself.
-/

namespace NebulaFS

open LittleEndian

namespace Sha256

/-- `ROTRIGHT`. -/
def rotRight (x n : UInt32) : UInt32 := (x >>> n) ||| (x <<< (32 - n))

def ch (x y z : UInt32) : UInt32 := (x &&& y) ^^^ (~~~x &&& z)

def maj (x y z : UInt32) : UInt32 := (x &&& y) ^^^ (x &&& z) ^^^ (y &&& z)

def ep0 (x : UInt32) : UInt32 := rotRight x 2 ^^^ rotRight x 13 ^^^ rotRight x 22

def ep1 (x : UInt32) : UInt32 := rotRight x 6 ^^^ rotRight x 11 ^^^ rotRight x 25

def sig0 (x : UInt32) : UInt32 := rotRight x 7 ^^^ rotRight x 18 ^^^ (x >>> 3)

def sig1 (x : UInt32) : UInt32 := rotRight x 17 ^^^ rotRight x 19 ^^^ (x >>> 10)

def k : List UInt32 :=
  [0x428a2f98, 0x71374491, 0xb5c0fbcf, 0xe9b5dba5, 0x3956c25b, 0x59f111f1, 0x923f82a4, 0xab1c5ed5,
    0xd807aa98, 0x12835b01, 0x243185be, 0x550c7dc3, 0x72be5d74, 0x80deb1fe, 0x9bdc06a7, 0xc19bf174,
    0xe49b69c1, 0xefbe4786, 0x0fc19dc6, 0x240ca1cc, 0x2de92c6f, 0x4a7484aa, 0x5cb0a9dc, 0x76f988da,
    0x983e5152, 0xa831c66d, 0xb00327c8, 0xbf597fc7, 0xc6e00bf3, 0xd5a79147, 0x06ca6351, 0x14292967,
    0x27b70a85, 0x2e1b2138, 0x4d2c6dfc, 0x53380d13, 0x650a7354, 0x766a0abb, 0x81c2c92e, 0x92722c85,
    0xa2bfe8a1, 0xa81a664b, 0xc24b8b70, 0xc76c51a3, 0xd192e819, 0xd6990624, 0xf40e3585, 0x106aa070,
    0x19a4c116, 0x1e376c08, 0x2748774c, 0x34b0bcb5, 0x391c0cb3, 0x4ed8aa4a, 0x5b9cca4f, 0x682e6ff3,
    0x748f82ee, 0x78a5636f, 0x84c87814, 0x8cc70208, 0x90befffa, 0xa4506ceb, 0xbef9a3f7, 0xc67178f2]

/-- The eight words of `state`, which are also the eight variables of a round. -/
structure State where
  a : UInt32
  b : UInt32
  c : UInt32
  d : UInt32
  e : UInt32
  f : UInt32
  g : UInt32
  h : UInt32
deriving DecidableEq

/-- A word of the block, high byte first. -/
def word (data : Bytes) (j : Nat) : UInt32 :=
  (data.getD j 0).toUInt32 <<< 24 ||| (data.getD (j + 1) 0).toUInt32 <<< 16
    ||| (data.getD (j + 2) 0).toUInt32 <<< 8 ||| (data.getD (j + 3) 0).toUInt32

/-- The array `m`: sixteen words of the block, and the others from those before them. -/
def schedule (data : Bytes) : List UInt32 :=
  (List.range' 16 48).foldl
    (fun m i =>
      m ++ [sig1 (m.getD (i - 2) 0) + m.getD (i - 7) 0 + sig0 (m.getD (i - 15) 0)
        + m.getD (i - 16) 0])
    ((List.range 16).map fun i => word data (4 * i))

def round (s : State) (input : UInt32 × UInt32) : State :=
  let t1 := s.h + ep1 s.e + ch s.e s.f s.g + input.1 + input.2
  let t2 := ep0 s.a + maj s.a s.b s.c
  { a := t1 + t2, b := s.a, c := s.b, d := s.c, e := s.d + t1, f := s.e, g := s.f, h := s.g }

def transform (state : State) (data : Bytes) : State :=
  let s := (k.zip (schedule data)).foldl round state
  { a := state.a + s.a, b := state.b + s.b, c := state.c + s.c, d := state.d + s.d
    e := state.e + s.e, f := state.f + s.f, g := state.g + s.g, h := state.h + s.h }

/-- `SHA256_CTX`. -/
structure Ctx where
  data : ByteArr 64 := zeroArr 64
  datalen : Fin 64 := 0
  bitlen : UInt64 := 0
  state : State :=
    { a := 0x6a09e667, b := 0xbb67ae85, c := 0x3c6ef372, d := 0xa54ff53a
      e := 0x510e527f, f := 0x9b05688c, g := 0x1f83d9ab, h := 0x5be0cd19 }
deriving DecidableEq

def init : Ctx := {}

/-- One round of the loop of `sha256_update`. -/
def updateByte (ctx : Ctx) (byte : UInt8) : Ctx :=
  let data := ctx.data.set ctx.datalen byte
  if hfull : ctx.datalen.val + 1 = 64 then
    { data := data
      datalen := 0
      bitlen := ctx.bitlen + 512
      state := transform ctx.state data.toList }
  else { ctx with data := data, datalen := ⟨ctx.datalen.val + 1, by omega⟩ }

def update (ctx : Ctx) (data : Bytes) : Ctx := data.foldl updateByte ctx

/-- The bytes of a number of `n` bytes, high byte first. -/
def beBytes (n v : Nat) : Bytes := (leBytes n v).reverse

def stateBytes (state : State) : Bytes :=
  [state.a, state.b, state.c, state.d, state.e, state.f, state.g, state.h].flatMap fun word =>
    beBytes 4 word.toNat

theorem length_stateBytes (state : State) : (stateBytes state).length = 32 := by
  simp [stateBytes, beBytes]

/-- `data[i++] = 0x80`, and zeros up to `n`. -/
def padTo (data : Bytes) (datalen n : Nat) : Bytes :=
  data.take datalen ++ 0x80 :: List.replicate (n - datalen - 1) 0 ++ data.drop n

/-- The block that is compressed last, and the state it is compressed into. -/
def lastBlock (ctx : Ctx) : State × Bytes :=
  let bitlen := ctx.bitlen + UInt64.ofNat (ctx.datalen.val * 8)
  let (state, data) :=
    if ctx.datalen.val < 56 then (ctx.state, padTo ctx.data.toList ctx.datalen 56)
    else
      let data := padTo ctx.data.toList ctx.datalen 64
      (transform ctx.state data, List.replicate 56 0 ++ data.drop 56)
  (state, data.take 56 ++ beBytes 8 bitlen.toNat)

/-- The digest of `sha256_final`. -/
def final (ctx : Ctx) : ByteArr 32 :=
  ⟨stateBytes (transform (lastBlock ctx).1 (lastBlock ctx).2), length_stateBytes _⟩

/-- The digest of the bytes that one engine absorbs. -/
def digest (data : Bytes) : ByteArr 32 := final (update init data)

end Sha256

/-- A build without OpenSSL, the other libraries as in some platform. -/
def Platform.withoutOpenssl (platform : Platform) : Platform :=
  { platform with hasOpenssl := false, sha256 := Sha256.digest }

/-- The engine of such a build, with the context as it lies in memory. -/
structure Sha256Engine where
  algo : HashAlgorithm
  ctx : Option Sha256.Ctx

namespace Sha256Engine

def initContext (algo : HashAlgorithm) : Option Sha256.Ctx :=
  if algo = .sha256 ∨ algo = .blake3 then some Sha256.init else none

def new (algo : HashAlgorithm) : Sha256Engine := { algo := algo, ctx := initContext algo }

/-- `reset`, and `destroyContext` before it. -/
def reset (engine : Sha256Engine) : Sha256Engine :=
  { engine with ctx := initContext engine.algo }

def update (engine : Sha256Engine) (data : Bytes) : Sha256Engine :=
  { engine with
      ctx := engine.ctx.map fun ctx =>
        if 0 < data.length then Sha256.update ctx data else ctx }

def finalize (engine : Sha256Engine) : ChecksumValue :=
  match engine.ctx with
  | none => zeroArr 32
  | some ctx => Sha256.final ctx

/-- The overload that takes several buffers. -/
def computeAll (buffers : List Bytes) (algo : HashAlgorithm) : ChecksumValue :=
  (buffers.foldl update (new algo)).finalize

end Sha256Engine

end NebulaFS
