/-!
# The BLAKE3 digest

The unkeyed hash of a byte string, 256 bits written as 64 hexadecimal digits. Input is cut into
chunks of 1024 bytes, chunks into blocks of 64; chunk outputs are joined in pairs, level by level,
an odd one out moving up unchanged, and the last output is finalized as the root.
-/
namespace BuildAnalysis.Blake3

abbrev Words := Vector UInt32 16
abbrev ChainingValue := Vector UInt32 8

def iv : ChainingValue :=
  #v[0x6A09E667, 0xBB67AE85, 0x3C6EF372, 0xA54FF53A, 0x510E527F, 0x9B05688C, 0x1F83D9AB, 0x5BE0CD19]

/-- Domain flags of a compression, combined by addition. -/
def chunkStart : UInt32 := 1
def chunkEnd : UInt32 := 2
def parentNode : UInt32 := 4
def root : UInt32 := 8

def rotateRight (x : UInt32) (n : UInt32) : UInt32 := (x >>> n) ||| (x <<< (32 - n))

/-- The quarter round on four state words with two message words. -/
def mix (v : Words) (a b c d : Fin 16) (x y : UInt32) : Words :=
  let va := v[a] + v[b] + x
  let vd := rotateRight (v[d] ^^^ va) 16
  let vc := v[c] + vd
  let vb := rotateRight (v[b] ^^^ vc) 12
  let va := va + vb + y
  let vd := rotateRight (vd ^^^ va) 8
  let vc := vc + vd
  let vb := rotateRight (vb ^^^ vc) 7
  (((v.set a va).set b vb).set c vc).set d vd

/-- Columns, then diagonals. -/
def mixRound (v m : Words) : Words :=
  let v := mix v 0 4 8 12 m[0] m[1]
  let v := mix v 1 5 9 13 m[2] m[3]
  let v := mix v 2 6 10 14 m[4] m[5]
  let v := mix v 3 7 11 15 m[6] m[7]
  let v := mix v 0 5 10 15 m[8] m[9]
  let v := mix v 1 6 11 12 m[10] m[11]
  let v := mix v 2 7 8 13 m[12] m[13]
  mix v 3 4 9 14 m[14] m[15]

/-- The order in which the next round reads the message words. -/
def permute (m : Words) : Words :=
  #v[m[2], m[6], m[3], m[10], m[7], m[0], m[4], m[13],
    m[1], m[11], m[12], m[5], m[9], m[14], m[15], m[8]]

def mixRounds : Nat → Words → Words → Words
  | 0, v, _ => v
  | n + 1, v, m => mixRounds n (mixRound v m) (permute m)

/-- What one compression takes; kept unevaluated until it is known whether it is the root. -/
structure Output where
  chaining : ChainingValue
  block : Words
  counter : UInt64
  length : UInt32
  flags : UInt32

/-- The first half of the compressed state. -/
def Output.compress (o : Output) (extra : UInt32) : ChainingValue :=
  let h := o.chaining
  let v : Words := #v[h[0], h[1], h[2], h[3], h[4], h[5], h[6], h[7], iv[0], iv[1], iv[2], iv[3],
    o.counter.toUInt32, (o.counter >>> 32).toUInt32, o.length, o.flags + extra]
  let v := mixRounds 7 v o.block
  Vector.ofFn fun i : Fin 8 => v[i] ^^^ v[i.val + 8]

def wordOfBytes (a b c d : UInt8) : UInt32 :=
  a.toUInt32 ||| (b.toUInt32 <<< 8) ||| (c.toUInt32 <<< 16) ||| (d.toUInt32 <<< 24)

/-- The sixteen words of the block that starts at `start`; bytes past `stop` read as zero. -/
def blockAt (bytes : ByteArray) (start stop : Nat) : Words :=
  let byte (i : Nat) : UInt8 := if start + i < stop then bytes.data.getD (start + i) 0 else 0
  Vector.ofFn fun w : Fin 16 =>
    wordOfBytes (byte (4 * w)) (byte (4 * w + 1)) (byte (4 * w + 2)) (byte (4 * w + 3))

/-- The output of the chunk from `start` to `stop`, with `blocks` blocks before its last one. -/
def chunkFrom (bytes : ByteArray) (counter : UInt64) (stop : Nat) :
    (blocks start : Nat) → (flags : UInt32) → ChainingValue → Output
  | 0, start, flags, h =>
    ⟨h, blockAt bytes start stop, counter, (stop - start).toUInt32, flags + chunkEnd⟩
  | n + 1, start, flags, h =>
    let o : Output := ⟨h, blockAt bytes start stop, counter, 64, flags⟩
    chunkFrom bytes counter stop n (start + 64) 0 (o.compress 0)

/-- The output of the chunk with the given number. -/
def chunk (bytes : ByteArray) (index : Nat) : Output :=
  let start := index * 1024
  let stop := min bytes.size (start + 1024)
  chunkFrom bytes index.toUInt64 stop ((stop - start - 1) / 64) start chunkStart iv

def parent (left right : Output) : Output :=
  ⟨iv, left.compress 0 ++ right.compress 0, 0, 64, parentNode⟩

/-- One level of the tree: neighbours are joined. -/
def joinPairs : List Output → List Output
  | a :: b :: rest => parent a b :: joinPairs rest
  | rest => rest

theorem length_joinPairs (os : List Output) : (joinPairs os).length = (os.length + 1) / 2 := by
  fun_induction joinPairs os with
  | case1 a b rest ih => simp only [List.length_cons, ih]; omega
  | case2 rest h =>
    match rest, h with
    | [], _ => rfl
    | [_], _ => simp
    | a :: b :: rest, h => exact absurd rfl (h a b rest)

/-- The root of the tree over the given outputs. -/
def joinAll (first : Output) (rest : List Output) : Output :=
  match rest with
  | [] => first
  | second :: rest =>
    joinAll (parent first second) (joinPairs rest)
termination_by rest.length
decreasing_by
  simp only [length_joinPairs, List.length_cons]
  omega

/-- The eight words of the digest. -/
def digest (bytes : ByteArray) : ChainingValue :=
  let chunks := (bytes.size + 1023) / 1024
  (joinAll (chunk bytes 0) ((List.range' 1 (chunks - 1)).map (chunk bytes))).compress root

/-- A byte as two hexadecimal digits. -/
def hexByte (b : UInt8) : List Char :=
  [Nat.digitChar (b.toNat / 16), Nat.digitChar (b.toNat % 16)]

/-- A word as eight hexadecimal digits, least significant byte first. -/
def hexWord (w : UInt32) : List Char :=
  hexByte w.toUInt8 ++ hexByte (w >>> 8).toUInt8 ++ hexByte (w >>> 16).toUInt8 ++
    hexByte (w >>> 24).toUInt8

/-- The digest of a text's UTF-8 form, in hexadecimal. -/
def hexDigest (s : String) : String :=
  String.ofList ((digest s.toUTF8).toList.flatMap hexWord)

end BuildAnalysis.Blake3
