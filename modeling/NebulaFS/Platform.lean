import NebulaFS.Types

/-!
# What the build links against

The compression, digest and cipher libraries are parameters: a `Platform` is one build of the
program. A library call that can fail returns `none`; one that fills a buffer returns the bytes it
wrote, given the capacity of the buffer. Nothing is assumed of them here.
-/

namespace NebulaFS

/-- `static_cast<int>(n)` of a `size_t`. -/
def toInt (n : Nat) : Int := Int.bmod n (2 ^ 32)

structure Lz4 where
  compressBound : Int → Int
  /-- `LZ4_compress_default(src, dst, srcSize, dstCapacity)`; a result of at most 0 is `none`. -/
  compressDefault : Bytes → Int → Option Bytes
  /-- `LZ4_decompress_safe(src, dst, srcSize, dstCapacity)`; a negative result is `none`. -/
  decompressSafe : Bytes → Int → Option Bytes

structure Zlib where
  compressBound : Nat → Nat
  compress2 : Bytes → Nat → Int → Option Bytes
  uncompress : Bytes → Nat → Option Bytes

structure Zstd where
  compressBound : Nat → Nat
  compressCCtx : Bytes → Nat → Int → Option Bytes
  /-- `ZSTD_getFrameContentSize`, with `none` for both of its error values. -/
  getFrameContentSize : Bytes → Option Nat
  decompress : Bytes → Nat → Option Bytes

structure Platform where
  /-- `NEBULA_HAS_OPENSSL`. -/
  hasOpenssl : Bool
  sha256 : Bytes → ByteArr 32
  crc32 : Bytes → UInt32
  lz4 : Lz4
  zlib : Zlib
  zstd : Zstd

namespace Platform

/-- One byte of zlib's CRC-32, with the reflected polynomial. -/
def crc32Byte (crc : UInt32) (byte : UInt8) : UInt32 :=
  (List.range 8).foldl
    (fun crc _ => if crc &&& 1 = 1 then (crc >>> 1) ^^^ 0xEDB88320 else crc >>> 1)
    (crc ^^^ byte.toUInt32)

/-- A Zstandard frame of one raw block, for content of less than 256 bytes: magic number, a
single-segment descriptor, one byte of content size, the block header, the content. -/
def rawFrame (data : Bytes) : Bytes :=
  [0x28, 0xB5, 0x2F, 0xFD, 0x20, UInt8.ofNat data.length, UInt8.ofNat (data.length * 8 + 1),
    UInt8.ofNat (data.length / 32), 0] ++ data

/-- A build to evaluate the model on. Its CRC-32 is the real one, its Zstandard stores short content
in a raw block, as the library does with content it cannot shrink, and its digests are those of the
empty text and of `abc`. The other codecs refuse everything. -/
def reference : Platform where
  hasOpenssl := true
  sha256 := fun data =>
    if data = [] then
      ⟨[0xE3, 0xB0, 0xC4, 0x42, 0x98, 0xFC, 0x1C, 0x14, 0x9A, 0xFB, 0xF4, 0xC8, 0x99, 0x6F, 0xB9, 0x24,
        0x27, 0xAE, 0x41, 0xE4, 0x64, 0x9B, 0x93, 0x4C, 0xA4, 0x95, 0x99, 0x1B, 0x78, 0x52, 0xB8, 0x55],
        rfl⟩
    else
      ⟨[0xBA, 0x78, 0x16, 0xBF, 0x8F, 0x01, 0xCF, 0xEA, 0x41, 0x41, 0x40, 0xDE, 0x5D, 0xAE, 0x22, 0x23,
        0xB0, 0x03, 0x61, 0xA3, 0x96, 0x17, 0x7A, 0x9C, 0xB4, 0x10, 0xFF, 0x61, 0xF2, 0x00, 0x15, 0xAD],
        rfl⟩
  crc32 := fun data => data.foldl crc32Byte 0xFFFFFFFF ^^^ 0xFFFFFFFF
  lz4 :=
    { compressBound := fun n => n + n / 255 + 16
      compressDefault := fun _ _ => none
      decompressSafe := fun _ _ => none }
  zlib :=
    { compressBound := fun n => n + n / 4096 + n / 16384 + n / 33554432 + 13
      compress2 := fun _ _ _ => none
      uncompress := fun _ _ => none }
  zstd :=
    { compressBound := fun n => n + n / 256 + 64
      compressCCtx := fun data capacity _ =>
        if data.length < 256 ∧ data.length + 9 ≤ capacity then some (rawFrame data) else none
      getFrameContentSize := fun frame =>
        if frame.take 5 = [0x28, 0xB5, 0x2F, 0xFD, 0x20] then frame[5]?.map UInt8.toNat else none
      decompress := fun frame capacity =>
        if frame = rawFrame (frame.drop 9) ∧ frame.length ≤ capacity + 9 then some (frame.drop 9)
        else none }

end Platform

/-- What OpenSSL answers during one `encrypt`: `RAND_bytes` and then every `EVP` call in its order.
`EVP_EncryptInit_ex` is called twice, to select AES-256-GCM and to set the key and the vector. -/
structure Evp where
  randBytes : Option (ByteArr 12)
  selectCipher : Bool
  setIvLen : Bool
  initKey : (key : ByteArr 32) → (iv : ByteArr 12) → Bool
  encryptUpdate : (key : ByteArr 32) → (iv : ByteArr 12) → (data : Bytes) → Option Bytes
  encryptFinal : (key : ByteArr 32) → (iv : ByteArr 12) → (data : Bytes) → Option Bytes
  getTag : (key : ByteArr 32) → (iv : ByteArr 12) → (data : Bytes) → Option (ByteArr 16)

def Evp.refusing : Evp where
  randBytes := none
  selectCipher := false
  setIvLen := false
  initKey := fun _ _ => false
  encryptUpdate := fun _ _ _ => none
  encryptFinal := fun _ _ _ => none
  getTag := fun _ _ _ => none

/-- What OpenSSL answers during one `decrypt`: every `EVP` call in its order. `EVP_DecryptInit_ex` is
called twice, as in `encrypt`. -/
structure EvpDecryption where
  selectCipher : Bool
  setIvLen : Bool
  initKey : (key : ByteArr 32) → (iv : ByteArr 12) → Bool
  decryptUpdate : (key : ByteArr 32) → (iv : ByteArr 12) → (data : Bytes) → Option Bytes
  setTag : (tag : ByteArr 16) → Bool
  decryptFinal : (key : ByteArr 32) → (iv : ByteArr 12) → (data : Bytes) → (tag : ByteArr 16) →
    Option Bytes

end NebulaFS
