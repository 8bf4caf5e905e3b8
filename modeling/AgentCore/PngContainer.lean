/-
# The check of a PNG container

`_has_complete_png_container` of `tool_content.py`: a walk over the chunks of a PNG file
that checks their bounds and checksums, and that they begin with a header, hold image
data and end with the trailer.

The bytes from an offset on stand for the offset. CRC-32 is that of `zlib`, bit by bit.

Key definitions: `crc32`, `hasCompletePngContainer`, `Chunk`, `Container`.
Key theorem: `hasComplete_iff`.
-/
import AgentCore.Lib.BigEndian
import Mathlib.Logic.Function.Iterate

namespace AgentCore.PngContainer

open Bytes

/-- One bit of a checksum. -/
def crcBit (crc : UInt32) : UInt32 := if crc &&& 1 = 1 then (crc >>> 1) ^^^ 0xedb88320 else crc >>> 1

def crcByte (crc : UInt32) (b : UInt8) : UInt32 := Nat.iterate crcBit 8 (crc ^^^ b.toUInt32)

/-- `zlib.crc32`. -/
def crc32 (bs : List UInt8) : UInt32 := bs.foldl crcByte 0xffffffff ^^^ 0xffffffff

example : crc32 "123456789".toUTF8.toList = 0xcbf43926 := by decide +kernel

/-- `IHDR`. -/
def ihdr : List UInt8 := [0x49, 0x48, 0x44, 0x52]

/-- `IDAT`. -/
def idat : List UInt8 := [0x49, 0x44, 0x41, 0x54]

/-- `IEND`. -/
def iend : List UInt8 := [0x49, 0x45, 0x4e, 0x44]

/-- The loop, from a chunk on. -/
def walk (rest : List UInt8) (sawHeader sawData : Bool) : Bool :=
  if hfits : 12 ≤ rest.length then
    let bodySize := ofBigEndian (rest.take 4)
    if rest.length < 12 + bodySize then false
    else
      let chunkType := (rest.drop 4).take 4
      let body := (rest.drop 8).take bodySize
      let expectedCrc := ofBigEndian ((rest.drop (8 + bodySize)).take 4)
      if (crc32 (chunkType ++ body)).toNat ≠ expectedCrc then false
      else if sawHeader = false then
        if chunkType ≠ ihdr ∨ bodySize ≠ 13 then false
        else walk (rest.drop (12 + bodySize)) true sawData
      else if chunkType = idat then walk (rest.drop (12 + bodySize)) sawHeader true
      else if chunkType = iend then bodySize = 0 && sawData && rest.length = 12 + bodySize
      else walk (rest.drop (12 + bodySize)) sawHeader sawData
  else false
termination_by rest.length
decreasing_by all_goals simp only [List.length_drop]; omega

/-- `_has_complete_png_container`. -/
def hasCompletePngContainer (data : List UInt8) : Bool := walk (data.drop 8) false false

/-! ### The grammar -/

/-- A chunk; its length fits the field of four bytes. -/
structure Chunk where
  chunkType : List UInt8
  body : List UInt8
  type_length : chunkType.length = 4
  body_length : body.length < 256 ^ 4

/-- A chunk with its length and its checksum. -/
def Chunk.bytes (c : Chunk) : List UInt8 :=
  toBigEndian 4 c.body.length ++ (c.chunkType ++ (c.body ++ toBigEndian 4 (crc32 (c.chunkType ++ c.body)).toNat))

/-- The chunks of a complete file. -/
structure Container (chunks : List Chunk) : Prop where
  header : ∃ c ∈ chunks.head?, c.chunkType = ihdr ∧ c.body.length = 13
  trailer : ∃ c ∈ chunks.getLast?, c.chunkType = iend ∧ c.body = []
  only_trailer : ∀ c ∈ chunks.dropLast, c.chunkType ≠ iend
  image : ∃ c ∈ chunks, c.chunkType = idat

/-! ### One chunk -/

theorem crc_lt (bs : List UInt8) : (crc32 bs).toNat < 256 ^ 4 := (crc32 bs).toNat_lt

/-- What the walk reads of a chunk. -/
theorem chunk_read (c : Chunk) (rest : List UInt8) :
    ofBigEndian ((c.bytes ++ rest).take 4) = c.body.length ∧
      ((c.bytes ++ rest).drop 4).take 4 = c.chunkType ∧
        ((c.bytes ++ rest).drop 8).take c.body.length = c.body ∧
          ofBigEndian (((c.bytes ++ rest).drop (8 + c.body.length)).take 4) = (crc32 (c.chunkType ++ c.body)).toNat ∧
            (c.bytes ++ rest).drop (12 + c.body.length) = rest ∧
              (c.bytes ++ rest).length = 12 + c.body.length + rest.length := by
  have htype := c.type_length
  have hlength : (toBigEndian 4 c.body.length).length = 4 := length_toBigEndian _ _
  have hcrc : (toBigEndian 4 (crc32 (c.chunkType ++ c.body)).toNat).length = 4 := length_toBigEndian _ _
  generalize hfield : toBigEndian 4 c.body.length = field at hlength
  generalize hsum : toBigEndian 4 (crc32 (c.chunkType ++ c.body)).toNat = sum at hcrc
  have hbytes : c.bytes ++ rest = field ++ (c.chunkType ++ (c.body ++ (sum ++ rest))) := by
    unfold Chunk.bytes
    rw [hfield, hsum]
    simp only [List.append_assoc]
  have hdrop4 : (c.bytes ++ rest).drop 4 = c.chunkType ++ (c.body ++ (sum ++ rest)) := by
    rw [hbytes, ← hlength, List.drop_left]
  have hdrop8 : (c.bytes ++ rest).drop 8 = c.body ++ (sum ++ rest) := by
    rw [← List.drop_drop (i := 4) (j := 4), hdrop4, ← htype, List.drop_left]
  have hdropBody : (c.bytes ++ rest).drop (8 + c.body.length) = sum ++ rest := by
    rw [← List.drop_drop, hdrop8, List.drop_left]
  refine ⟨?_, ?_, ?_, ?_, ?_, ?_⟩
  · rw [hbytes, ← hlength, List.take_left, ← hfield, ofBigEndian_toBigEndian c.body_length]
  · rw [hdrop4, ← htype, List.take_left]
  · rw [hdrop8, List.take_left]
  · rw [hdropBody, ← hcrc, List.take_left, ← hsum, ofBigEndian_toBigEndian (crc_lt _)]
  · have hsplit : 12 + c.body.length = 8 + c.body.length + 4 := by omega
    rw [hsplit, ← List.drop_drop, hdropBody, ← hcrc, List.drop_left]
  · rw [hbytes]
    simp only [List.length_append]
    omega

/-- A chunk whose checksum matches is the bytes of one. -/
theorem exists_chunk {rest : List UInt8} (hfits : 12 + ofBigEndian (rest.take 4) ≤ rest.length)
    (hcrc : (crc32 ((rest.drop 4).take 4 ++ (rest.drop 8).take (ofBigEndian (rest.take 4)))).toNat =
      ofBigEndian ((rest.drop (8 + ofBigEndian (rest.take 4))).take 4)) :
    ∃ c : Chunk, rest = c.bytes ++ rest.drop (12 + ofBigEndian (rest.take 4)) := by
  have hfield : (rest.take 4).length = 4 := by
    rw [List.length_take]
    omega
  have hsmall : ofBigEndian (rest.take 4) < 256 ^ 4 := by
    have hlt := ofBigEndian_lt (rest.take 4)
    rwa [hfield] at hlt
  generalize hsize : ofBigEndian (rest.take 4) = size at hfits hcrc hsmall ⊢
  have hbody : ((rest.drop 8).take size).length = size := by
    rw [List.length_take, List.length_drop]
    omega
  have htype : ((rest.drop 4).take 4).length = 4 := by
    rw [List.length_take, List.length_drop]
    omega
  have hsum : ((rest.drop (8 + size)).take 4).length = 4 := by
    rw [List.length_take, List.length_drop]
    omega
  refine ⟨⟨(rest.drop 4).take 4, (rest.drop 8).take size, htype, hbody.symm ▸ hsmall⟩, ?_⟩
  have hhead : toBigEndian 4 size = rest.take 4 := ((ofBigEndian_eq_iff hfield hsmall).mp hsize).symm
  have htail : toBigEndian 4 (crc32 ((rest.drop 4).take 4 ++ (rest.drop 8).take size)).toNat =
      (rest.drop (8 + size)).take 4 := ((ofBigEndian_eq_iff hsum (crc_lt _)).mp hcrc.symm).symm
  -- the four fields one after the other
  have h1 : rest = rest.take 4 ++ rest.drop 4 := (List.take_append_drop 4 rest).symm
  have h2 : rest.drop 4 = (rest.drop 4).take 4 ++ rest.drop 8 := by
    have hsplit := (List.take_append_drop 4 (rest.drop 4)).symm
    rwa [List.drop_drop] at hsplit
  have h3 : rest.drop 8 = (rest.drop 8).take size ++ rest.drop (8 + size) := by
    have hsplit := (List.take_append_drop size (rest.drop 8)).symm
    rwa [List.drop_drop] at hsplit
  have h4 : rest.drop (8 + size) = (rest.drop (8 + size)).take 4 ++ rest.drop (12 + size) := by
    have hsplit := (List.take_append_drop 4 (rest.drop (8 + size))).symm
    have hsum : 8 + size + 4 = 12 + size := by omega
    rwa [List.drop_drop, hsum] at hsplit
  show rest = (toBigEndian 4 ((rest.drop 8).take size).length ++ ((rest.drop 4).take 4 ++ ((rest.drop 8).take size ++
    toBigEndian 4 (crc32 ((rest.drop 4).take 4 ++ (rest.drop 8).take size)).toNat))) ++ rest.drop (12 + size)
  rw [hbody, hhead, htail]
  simp only [List.append_assoc]
  rw [← h4, ← h3, ← h2, ← h1]

/-! ### The walk -/

/-- A turn of the loop at a chunk. -/
theorem walk_chunk (c : Chunk) (rest : List UInt8) (sawHeader sawData : Bool) :
    walk (c.bytes ++ rest) sawHeader sawData =
      if sawHeader = false then
        if c.chunkType ≠ ihdr ∨ c.body.length ≠ 13 then false else walk rest true sawData
      else if c.chunkType = idat then walk rest sawHeader true
      else if c.chunkType = iend then c.body.length = 0 && sawData && rest.length = 0
      else walk rest sawHeader sawData := by
  obtain ⟨hsize, htype, hbody, hcrc, hdrop, hlength⟩ := chunk_read c rest
  have hfits : 12 ≤ (c.bytes ++ rest).length := by omega
  have hbounds : ¬ (c.bytes ++ rest).length < 12 + c.body.length := by omega
  have hend : ((c.bytes ++ rest).length = 12 + c.body.length) = (rest.length = 0) := by
    rw [hlength]
    exact propext (by omega)
  rw [walk, dif_pos hfits]
  dsimp only
  rw [hsize, htype, hbody, hcrc, if_neg hbounds, if_neg (fun h => h rfl), hdrop]
  simp only [hend]

/-- The walk goes on only at a chunk. -/
theorem walk_accepts {rest : List UInt8} {sawHeader sawData : Bool} (h : walk rest sawHeader sawData = true) :
    ∃ (c : Chunk) (later : List UInt8), rest = c.bytes ++ later := by
  rw [walk] at h
  by_cases hfits : 12 ≤ rest.length
  · rw [dif_pos hfits] at h
    dsimp only at h
    by_cases hbounds : rest.length < 12 + ofBigEndian (rest.take 4)
    · rw [if_pos hbounds] at h
      cases h
    · rw [if_neg hbounds] at h
      by_cases hcrc : (crc32 ((rest.drop 4).take 4 ++ (rest.drop 8).take (ofBigEndian (rest.take 4)))).toNat ≠
          ofBigEndian ((rest.drop (8 + ofBigEndian (rest.take 4))).take 4)
      · rw [if_pos hcrc] at h
        cases h
      · obtain ⟨c, hc⟩ := exists_chunk (Nat.not_lt.mp hbounds) (not_not.mp hcrc)
        exact ⟨c, _, hc⟩
  · rw [dif_neg hfits] at h
    cases h

/-- The rest of a complete file after its header. -/
structure Tail (sawData : Bool) (chunks : List Chunk) : Prop where
  trailer : ∃ c ∈ chunks.getLast?, c.chunkType = iend ∧ c.body = []
  only_trailer : ∀ c ∈ chunks.dropLast, c.chunkType ≠ iend
  image : sawData = true ∨ ∃ c ∈ chunks, c.chunkType = idat

theorem tail_cons {c next : Chunk} {chunks : List Chunk} {sawData : Bool} : Tail sawData (c :: next :: chunks) ↔
    c.chunkType ≠ iend ∧ Tail (sawData || c.chunkType = idat) (next :: chunks) := by
  constructor
  · rintro ⟨htrailer, honly, himage⟩
    refine ⟨honly c List.mem_cons_self, htrailer, fun d hd => honly d (List.mem_cons_of_mem _ hd), ?_⟩
    rcases himage with hsaw | ⟨d, hd, himage⟩
    · exact .inl (by rw [hsaw, Bool.true_or])
    · rcases List.mem_cons.mp hd with rfl | hd
      · exact .inl (by simp [himage])
      · exact .inr ⟨d, hd, himage⟩
  · rintro ⟨hc, htrailer, honly, himage⟩
    refine ⟨htrailer, ?_, ?_⟩
    · intro d hd
      rcases List.mem_cons.mp hd with rfl | hd
      · exact hc
      · exact honly d hd
    · rcases himage with hsaw | ⟨d, hd, himage⟩
      · rcases Bool.or_eq_true_iff.mp hsaw with hsaw | hidat
        · exact .inl hsaw
        · exact .inr ⟨c, List.mem_cons_self, by simpa using hidat⟩
      · exact .inr ⟨d, List.mem_cons_of_mem _ hd, himage⟩

theorem tail_singleton {c : Chunk} {sawData : Bool} : Tail sawData [c] ↔
    c.chunkType = iend ∧ c.body.length = 0 ∧ sawData = true := by
  constructor
  · rintro ⟨⟨d, hd, htype, hbody⟩, -, himage⟩
    obtain rfl : c = d := by simpa using hd
    refine ⟨htype, by rw [hbody]; rfl, himage.resolve_right ?_⟩
    rintro ⟨d, hd, hidat⟩
    rw [List.mem_singleton.mp hd, htype] at hidat
    exact absurd hidat (by decide)
  · rintro ⟨htype, hbody, hsaw⟩
    exact ⟨⟨c, rfl, htype, List.eq_nil_of_length_eq_zero hbody⟩, by simp, .inl hsaw⟩

theorem Tail.ne_nil {chunks : List Chunk} {sawData : Bool} (h : Tail sawData chunks) : chunks ≠ [] := by
  rintro rfl
  obtain ⟨c, hc, -⟩ := h.trailer
  cases hc

theorem length_bytes_pos (c : Chunk) : 12 ≤ c.bytes.length := by
  obtain ⟨-, -, -, -, -, hlength⟩ := chunk_read c []
  rw [List.append_nil] at hlength
  omega

theorem walk_nil (sawHeader sawData : Bool) : walk [] sawHeader sawData = false := by
  rw [walk, dif_neg (by decide)]

/-- A chunk after the header that is not the trailer. -/
theorem walk_next {c : Chunk} (h : c.chunkType ≠ iend) (rest : List UInt8) (sawData : Bool) :
    walk (c.bytes ++ rest) true sawData = walk rest true (sawData || c.chunkType = idat) := by
  rw [walk_chunk, if_neg (by decide)]
  by_cases hidat : c.chunkType = idat
  · simp [hidat]
  · simp [hidat, h]

/-- The trailer. -/
theorem walk_trailer {c : Chunk} (h : c.chunkType = iend) (rest : List UInt8) (sawData : Bool) :
    walk (c.bytes ++ rest) true sawData = (c.body.length = 0 && sawData && rest.length = 0) := by
  have hidat : c.chunkType ≠ idat := by
    rw [h]
    decide
  rw [walk_chunk, if_neg (by decide), if_neg hidat, if_pos h]

/-- After the header, the walk accepts exactly the tails. -/
theorem walk_tail (n : ℕ) : ∀ {rest : List UInt8} {sawData : Bool}, rest.length ≤ n →
    (walk rest true sawData = true ↔ ∃ chunks, rest = chunks.flatMap Chunk.bytes ∧ Tail sawData chunks) := by
  induction n with
  | zero =>
    intro rest sawData hlength
    obtain rfl := List.eq_nil_of_length_eq_zero (Nat.le_zero.mp hlength)
    rw [walk_nil]
    refine iff_of_false Bool.false_ne_true ?_
    rintro ⟨chunks, hchunks, htail⟩
    obtain ⟨c, more, rfl⟩ := List.exists_cons_of_ne_nil htail.ne_nil
    have hlong := length_bytes_pos c
    have hshort := congrArg List.length hchunks
    rw [List.flatMap_cons, List.length_append, List.length_nil] at hshort
    omega
  | succ n ih =>
    intro rest sawData hlength
    constructor
    · intro h
      obtain ⟨c, later, rfl⟩ := walk_accepts h
      have hlong := length_bytes_pos c
      have hlater : later.length ≤ n := by
        rw [List.length_append] at hlength
        omega
      by_cases htype : c.chunkType = iend
      · rw [walk_trailer htype] at h
        simp only [Bool.and_eq_true, decide_eq_true_eq] at h
        obtain ⟨⟨hbody, hsaw⟩, hend⟩ := h
        refine ⟨[c], ?_, tail_singleton.mpr ⟨htype, hbody, hsaw⟩⟩
        rw [List.eq_nil_of_length_eq_zero hend, List.flatMap_singleton, List.append_nil]
      · rw [walk_next htype] at h
        obtain ⟨chunks, rfl, htail⟩ := (ih hlater).mp h
        obtain ⟨next, more, rfl⟩ := List.exists_cons_of_ne_nil htail.ne_nil
        exact ⟨c :: next :: more, rfl, tail_cons.mpr ⟨htype, htail⟩⟩
    · rintro ⟨chunks, rfl, htail⟩
      obtain ⟨c, more, rfl⟩ := List.exists_cons_of_ne_nil htail.ne_nil
      rw [List.flatMap_cons] at hlength ⊢
      have hlong := length_bytes_pos c
      have hlater : (more.flatMap Chunk.bytes).length ≤ n := by
        rw [List.length_append] at hlength
        omega
      cases more with
      | nil =>
        obtain ⟨htype, hbody, hsaw⟩ := tail_singleton.mp htail
        rw [walk_trailer htype, hbody, hsaw]
        rfl
      | cons next more =>
        obtain ⟨htype, htail⟩ := tail_cons.mp htail
        rw [walk_next htype]
        exact (ih hlater).mpr ⟨next :: more, rfl, htail⟩

/-! ### The file -/

/-- The first eight bytes of a PNG file. -/
def signature : List UInt8 := [0x89, 0x50, 0x4e, 0x47, 0x0d, 0x0a, 0x1a, 0x0a]

/-- A header chunk and a tail make a complete file. -/
theorem container_cons {c : Chunk} {chunks : List Chunk} : Container (c :: chunks) ↔
    c.chunkType = ihdr ∧ c.body.length = 13 ∧ Tail false chunks := by
  constructor
  · rintro ⟨⟨d, hd, htype, hbody⟩, htrailer, honly, himage⟩
    obtain rfl : c = d := by simpa using hd
    refine ⟨htype, hbody, ?_⟩
    cases chunks with
    | nil =>
      obtain ⟨d, hd, hiend, -⟩ := htrailer
      obtain rfl : c = d := by simpa using hd
      rw [htype] at hiend
      exact absurd hiend (by decide)
    | cons next chunks =>
      refine ⟨htrailer, fun d hd => honly d (List.mem_cons_of_mem _ hd), .inr ?_⟩
      obtain ⟨d, hd, hidat⟩ := himage
      rcases List.mem_cons.mp hd with rfl | hd
      · rw [htype] at hidat
        exact absurd hidat (by decide)
      · exact ⟨d, hd, hidat⟩
  · rintro ⟨htype, hbody, htail⟩
    obtain ⟨next, more, rfl⟩ := List.exists_cons_of_ne_nil htail.ne_nil
    refine ⟨⟨c, rfl, htype, hbody⟩, htail.trailer, ?_, ?_⟩
    · intro d hd
      rcases List.mem_cons.mp hd with rfl | hd
      · rw [htype]
        decide
      · exact htail.only_trailer d hd
    · obtain ⟨d, hd, hidat⟩ := htail.image.resolve_left Bool.false_ne_true
      exact ⟨d, List.mem_cons_of_mem _ hd, hidat⟩

/-- **The check accepts exactly** the complete sequences of chunks. -/
theorem hasComplete_iff (rest : List UInt8) : hasCompletePngContainer (signature ++ rest) = true ↔
    ∃ chunks, rest = chunks.flatMap Chunk.bytes ∧ Container chunks := by
  have hdrop : (signature ++ rest).drop 8 = rest := rfl
  unfold hasCompletePngContainer
  rw [hdrop]
  constructor
  · intro h
    obtain ⟨c, later, rfl⟩ := walk_accepts h
    rw [walk_chunk, if_pos rfl] at h
    by_cases hheader : c.chunkType ≠ ihdr ∨ c.body.length ≠ 13
    · rw [if_pos hheader] at h
      cases h
    · rw [if_neg hheader] at h
      obtain ⟨htype, hbody⟩ := not_or.mp hheader
      obtain ⟨chunks, rfl, htail⟩ := (walk_tail later.length (Nat.le_refl _)).mp h
      exact ⟨c :: chunks, rfl, container_cons.mpr ⟨not_not.mp htype, not_not.mp hbody, htail⟩⟩
  · rintro ⟨chunks, rfl, hcontainer⟩
    cases chunks with
    | nil =>
      obtain ⟨c, hc, -⟩ := hcontainer.header
      cases hc
    | cons c chunks =>
      obtain ⟨htype, hbody, htail⟩ := container_cons.mp hcontainer
      have hheader : ¬ (c.chunkType ≠ ihdr ∨ c.body.length ≠ 13) := by simp [htype, hbody]
      rw [List.flatMap_cons, walk_chunk, if_pos rfl, if_neg hheader]
      exact (walk_tail _ (Nat.le_refl _)).mpr ⟨chunks, rfl, htail⟩

end AgentCore.PngContainer
