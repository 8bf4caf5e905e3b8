/-
# The dimensions of a JPEG image

`_jpeg_size` of `tool_content.py` walks over the markers of a JPEG file to its frame
header, which holds the dimensions. It steps over a segment by the length that the
segment states, and over a byte that begins no marker by itself.

Where no marker has fill bytes in front of it, the walk goes from marker to marker and
finds the first frame header, whatever the segments hold (`found_of_unfilled`).
A fill byte is taken for a marker, and the bytes after it for a length; that is a step of
more than 257 bytes into what follows (`walk_fill`).

The bytes from an offset on stand for the offset.

Key definitions: `jpegSize`, `Item`, `Header`, `Unfilled`.
Key theorem: `dimensions_found`.
-/
import AgentCore.Lib.BigEndian

namespace AgentCore.JpegSize

open Bytes

/-- A marker that no length follows. -/
def isStandalone (marker : UInt8) : Bool := marker = 0xd8 || marker = 0x01 || (0xd0 ≤ marker && marker ≤ 0xd7)

/-- The marker of a frame header. -/
def isFrame (marker : UInt8) : Bool :=
  (0xc0 ≤ marker && marker ≤ 0xcf) && !(marker = 0xc4 || marker = 0xc8 || marker = 0xcc)

/-- The loop, from a position on. -/
def walk (rest : List UInt8) : ℕ × ℕ :=
  if hmore : 9 < rest.length then
    if rest.headD 0 ≠ 0xff then walk (rest.drop 1)
    else
      let marker := (rest.drop 1).headD 0
      if isStandalone marker then walk (rest.drop 2)
      else if marker = 0xda then (0, 0)
      else
        let segmentLength := ofBigEndian ((rest.drop 2).take 2)
        if segmentLength < 2 then (0, 0)
        else if isFrame marker then (ofBigEndian ((rest.drop 7).take 2), ofBigEndian ((rest.drop 5).take 2))
        else walk (rest.drop (2 + segmentLength))
  else (0, 0)
termination_by rest.length
decreasing_by all_goals simp only [List.length_drop]; omega

/-- `_jpeg_size`: width and height. -/
def jpegSize (data : List UInt8) : ℕ × ℕ := walk (data.drop 2)

/-! ### Well-formed headers -/

/-- The marker of a segment before the frame header. -/
def isSegment (marker : UInt8) : Bool :=
  !isStandalone marker && !isFrame marker && marker ≠ 0xda && marker ≠ 0xd9 && marker ≠ 0xff && marker ≠ 0

/-- A marker before the frame header, with the payload of a segment. -/
inductive Item
  | standalone (marker : UInt8) (h : isStandalone marker = true)
  | segment (marker : UInt8) (payload : List UInt8) (h : isSegment marker = true)
      (hlength : payload.length + 2 < 256 ^ 2)

/-- The marker and what belongs to it. -/
def Item.bytes : Item → List UInt8
  | .standalone marker _ => [0xff, marker]
  | .segment marker payload _ _ => 0xff :: marker :: (toBigEndian 2 (payload.length + 2) ++ payload)

/-- A frame header, and what follows its dimensions. -/
structure Frame where
  marker : UInt8
  length : ℕ
  precision : UInt8
  height : ℕ
  width : ℕ
  rest : List UInt8
  isFrame : isFrame marker = true
  length_ge : 2 ≤ length
  length_lt : length < 256 ^ 2
  height_lt : height < 256 ^ 2
  width_lt : width < 256 ^ 2
  /-- Ten bytes from the marker to the end. -/
  rest_ne : rest ≠ []

def Frame.bytes (f : Frame) : List UInt8 :=
  0xff :: f.marker :: (toBigEndian 2 f.length ++ f.precision :: (toBigEndian 2 f.height ++ (toBigEndian 2 f.width ++ f.rest)))

/-- The fill bytes in front of a marker. -/
def fill (n : ℕ) : List UInt8 := List.replicate n 0xff

/-- A JPEG file up to its first frame header, and what follows. Each marker comes with
the number of its fill bytes. -/
structure Header where
  items : List (ℕ × Item)
  frameFill : ℕ
  frame : Frame

def Header.bytes (h : Header) : List UInt8 :=
  0xff :: 0xd8 :: (h.items.flatMap (fun i => fill i.1 ++ i.2.bytes) ++ (fill h.frameFill ++ h.frame.bytes))

/-- **The dimensions are found.** -/
def Found (h : Header) : Prop := jpegSize h.bytes = (h.frame.width, h.frame.height)

/-- No marker has fill bytes in front of it. -/
def Unfilled (h : Header) : Prop := (∀ i ∈ h.items, i.1 = 0) ∧ h.frameFill = 0

/-! ### The walk -/

theorem take_field {width n : ℕ} (rest : List UInt8) (hn : n < 256 ^ width) :
    ofBigEndian ((toBigEndian width n ++ rest).take width) = n := by
  have htake : (toBigEndian width n ++ rest).take width = toBigEndian width n := by
    rw [List.take_append_of_le_length (Nat.le_of_eq (length_toBigEndian width n).symm)]
    exact List.take_of_length_le (Nat.le_of_eq (length_toBigEndian width n))
  rw [htake, ofBigEndian_toBigEndian hn]

theorem drop_field (width n : ℕ) (rest : List UInt8) : (toBigEndian width n ++ rest).drop width = rest :=
  List.drop_left' (length_toBigEndian width n)

theorem walk_short {rest : List UInt8} (h : rest.length ≤ 9) : walk rest = (0, 0) := by
  rw [walk, dif_neg (Nat.not_lt.mpr h)]

theorem walk_standalone {marker : UInt8} (h : isStandalone marker = true) {rest : List UInt8} (hmore : 9 < rest.length) :
    walk (0xff :: marker :: rest) = walk rest := by
  have hlength : 9 < (0xff :: marker :: rest).length := by
    rw [List.length_cons, List.length_cons]
    omega
  rw [walk, dif_pos hlength, if_neg (by simp)]
  exact if_pos h

/-- A turn of the loop at a marker with a length. -/
theorem walk_length {marker : UInt8} (h : isStandalone marker = false) (hscan : marker ≠ 0xda) {rest : List UInt8}
    (hmore : 7 < rest.length) : walk (0xff :: marker :: rest) =
      if ofBigEndian (rest.take 2) < 2 then (0, 0)
      else if isFrame marker then (ofBigEndian ((rest.drop 5).take 2), ofBigEndian ((rest.drop 3).take 2))
      else walk (rest.drop (ofBigEndian (rest.take 2))) := by
  have hlength : 9 < (0xff :: marker :: rest).length := by
    rw [List.length_cons, List.length_cons]
    omega
  have hskip : (0xff :: marker :: rest).drop (2 + ofBigEndian (rest.take 2)) = rest.drop (ofBigEndian (rest.take 2)) := by
    rw [Nat.add_comm]
    rfl
  have hmarker : ((0xff :: marker :: rest).drop 1).headD 0 = marker := rfl
  have hrest : (0xff :: marker :: rest).drop 2 = rest := rfl
  rw [walk, dif_pos hlength, if_neg (by simp)]
  dsimp only
  rw [hmarker, hrest, h, if_neg Bool.false_ne_true, if_neg hscan, hskip]
  rfl

theorem isSegment_iff {marker : UInt8} (h : isSegment marker = true) :
    isStandalone marker = false ∧ isFrame marker = false ∧ marker ≠ 0xda ∧ marker ≠ 0xff ∧ marker ≠ 0 := by
  unfold isSegment at h
  simp only [Bool.and_eq_true, Bool.not_eq_true', decide_eq_true_eq] at h
  obtain ⟨⟨⟨⟨⟨hstandalone, hframe⟩, hscan⟩, -⟩, hfill⟩, hzero⟩ := h
  exact ⟨hstandalone, hframe, hscan, hfill, hzero⟩

theorem isFrame_apart {marker : UInt8} (h : isFrame marker = true) :
    isStandalone marker = false ∧ marker ≠ 0xda ∧ marker ≠ 0xff ∧ marker ≠ 0 := by
  unfold isFrame at h
  obtain ⟨hlow, hhigh⟩ : 0xc0 ≤ marker ∧ marker ≤ 0xcf := by
    simpa using (Bool.and_eq_true_iff.mp h).1
  have hstandalone : ¬ isStandalone marker = true := by
    intro hstandalone
    unfold isStandalone at hstandalone
    simp only [Bool.or_eq_true, Bool.and_eq_true, decide_eq_true_eq] at hstandalone
    rcases hstandalone with (rfl | rfl) | ⟨hreset, -⟩
    · exact absurd hhigh (by decide)
    · exact absurd hlow (by decide)
    · exact absurd (UInt8.le_trans hreset hhigh) (by decide)
  refine ⟨by simpa using hstandalone, ?_, ?_, ?_⟩
  · rintro rfl
    exact absurd hhigh (by decide)
  · rintro rfl
    exact absurd hhigh (by decide)
  · rintro rfl
    exact absurd hlow (by decide)

/-- The walk over a marker without fill bytes. -/
theorem walk_item (i : Item) {rest : List UInt8} (hmore : 9 < rest.length) : walk (i.bytes ++ rest) = walk rest := by
  cases i with
  | standalone marker h => exact walk_standalone h hmore
  | segment marker payload h hlength =>
    obtain ⟨hstandalone, hframe, hscan, -, -⟩ := isSegment_iff h
    have hbytes : (Item.segment marker payload h hlength).bytes ++ rest =
        0xff :: marker :: (toBigEndian 2 (payload.length + 2) ++ (payload ++ rest)) := by
      show 0xff :: marker :: ((toBigEndian 2 (payload.length + 2) ++ payload) ++ rest) = _
      rw [List.append_assoc]
    have hmore' : 7 < (toBigEndian 2 (payload.length + 2) ++ (payload ++ rest)).length := by
      rw [List.length_append, List.length_append]
      omega
    have hskip : (toBigEndian 2 (payload.length + 2) ++ (payload ++ rest)).drop (payload.length + 2) = rest := by
      rw [Nat.add_comm, ← List.drop_drop, drop_field, List.drop_left]
    rw [hbytes, walk_length hstandalone hscan hmore', take_field _ hlength, if_neg (by omega), hframe,
      if_neg Bool.false_ne_true, hskip]

theorem length_frame (f : Frame) : 9 < f.bytes.length := by
  have hrest : 0 < f.rest.length := List.length_pos_iff.mpr f.rest_ne
  unfold Frame.bytes
  simp only [List.length_cons, List.length_append, length_toBigEndian]
  omega

theorem walk_frame (f : Frame) : walk f.bytes = (f.width, f.height) := by
  obtain ⟨hstandalone, hscan, -, -⟩ := isFrame_apart f.isFrame
  have hmore : 7 < (toBigEndian 2 f.length ++
      f.precision :: (toBigEndian 2 f.height ++ (toBigEndian 2 f.width ++ f.rest))).length := by
    have hlength := length_frame f
    unfold Frame.bytes at hlength
    rw [List.length_cons, List.length_cons] at hlength
    omega
  have hheight : (toBigEndian 2 f.length ++ f.precision :: (toBigEndian 2 f.height ++
      (toBigEndian 2 f.width ++ f.rest))).drop 3 = toBigEndian 2 f.height ++ (toBigEndian 2 f.width ++ f.rest) := by
    rw [← List.drop_drop (i := 1) (j := 2), drop_field]
    rfl
  have hwidth : (toBigEndian 2 f.length ++ f.precision :: (toBigEndian 2 f.height ++
      (toBigEndian 2 f.width ++ f.rest))).drop 5 = toBigEndian 2 f.width ++ f.rest := by
    rw [← List.drop_drop (i := 2) (j := 3), hheight, drop_field]
  have hlong : ¬ f.length < 2 := Nat.not_lt.mpr f.length_ge
  unfold Frame.bytes
  rw [walk_length hstandalone hscan hmore, take_field _ f.length_lt, if_neg hlong, if_pos f.isFrame, hheight, hwidth,
    take_field _ f.height_lt, take_field _ f.width_lt]

/-- The walk over markers without fill bytes. -/
theorem walk_items : ∀ {items : List (ℕ × Item)}, (∀ i ∈ items, i.1 = 0) → ∀ {rest : List UInt8}, 9 < rest.length →
    walk (items.flatMap (fun i => fill i.1 ++ i.2.bytes) ++ rest) = walk rest
  | [], _, _, _ => rfl
  | i :: items, h, rest, hmore => by
    have hfill : fill i.1 = [] := by
      rw [h i List.mem_cons_self]
      rfl
    have hmore' : 9 < (items.flatMap (fun i => fill i.1 ++ i.2.bytes) ++ rest).length := by
      rw [List.length_append]
      omega
    rw [List.flatMap_cons, hfill, List.nil_append, List.append_assoc, walk_item i.2 hmore',
      walk_items (fun j hj => h j (List.mem_cons_of_mem _ hj)) hmore]

/-- **The first frame header is found** behind markers without fill bytes, whatever their
segments hold. -/
theorem found_of_unfilled {h : Header} (hu : Unfilled h) : Found h := by
  have hfill : fill h.frameFill = [] := by
    rw [hu.2]
    rfl
  show walk (h.items.flatMap (fun i => fill i.1 ++ i.2.bytes) ++ (fill h.frameFill ++ h.frame.bytes)) = _
  rw [hfill, List.nil_append, walk_items hu.1 (length_frame h.frame), walk_frame]

/-! ### Fill bytes -/

/-- A fill byte is taken for a marker, and what follows for its length. -/
theorem walk_fill {a b : UInt8} (ha : a ≠ 0) {rest : List UInt8} (hmore : 5 < rest.length) :
    walk (0xff :: 0xff :: a :: b :: rest) = walk ((a :: b :: rest).drop (256 * a.toNat + b.toNat)) := by
  have hlength : 7 < (a :: b :: rest).length := by
    rw [List.length_cons, List.length_cons]
    omega
  have hfield : ofBigEndian ((a :: b :: rest).take 2) = 256 * a.toNat + b.toNat := by
    show 256 * (256 * 0 + a.toNat) + b.toNat = _
    omega
  have hpos : a.toNat ≠ 0 := fun h => ha (UInt8.toNat_inj.mp h)
  rw [walk_length (by decide) (by decide) hlength, hfield, if_neg (by omega), if_neg (by decide)]

theorem fill_cons (rest : List UInt8) : ∀ n : ℕ, fill n ++ 0xff :: rest = 0xff :: (fill n ++ rest)
  | 0 => rfl
  | n + 1 => congrArg (0xff :: ·) (fill_cons rest n)

theorem fill_head {marker : UInt8} (hmarker : marker ≠ 0) : ∀ (n : ℕ) {more : List UInt8}, more ≠ [] →
    ∃ a b rest, fill (n + 1) ++ 0xff :: marker :: more = 0xff :: 0xff :: a :: b :: rest ∧ a ≠ 0
  | 0, b :: rest, _ => ⟨marker, b, rest, rfl, hmarker⟩
  | 1, more, _ => ⟨0xff, marker, more, rfl, by decide⟩
  | n + 2, more, _ => by
    refine ⟨0xff, 0xff, fill n ++ marker :: more, ?_, by decide⟩
    show 0xff :: 0xff :: 0xff :: (fill n ++ 0xff :: marker :: more) = _
    rw [fill_cons]

/-- Within 257 bytes of the end the step leads out of the file. -/
theorem walk_filled {marker : UInt8} (hmarker : marker ≠ 0) (n : ℕ) {more : List UInt8} (hmore : 7 < more.length)
    (hshort : (fill (n + 1) ++ 0xff :: marker :: more).length ≤ 267) :
    walk (fill (n + 1) ++ 0xff :: marker :: more) = (0, 0) := by
  have hne : more ≠ [] := by
    rintro rfl
    cases hmore
  obtain ⟨a, b, rest, hbytes, ha⟩ := fill_head hmarker n hne
  have hlength : (fill (n + 1) ++ 0xff :: marker :: more).length = rest.length + 4 := by
    rw [hbytes]
    rfl
  have hlong : 9 < rest.length + 4 := by
    rw [← hlength, List.length_append, List.length_cons, List.length_cons]
    omega
  have hpos : a.toNat ≠ 0 := fun h => ha (UInt8.toNat_inj.mp h)
  rw [hbytes, walk_fill ha (by omega)]
  apply walk_short
  rw [List.length_drop, List.length_cons, List.length_cons]
  omega

theorem item_head (i : Item) : ∃ marker more, i.bytes = 0xff :: marker :: more ∧ marker ≠ 0 := by
  cases i with
  | standalone marker h =>
    refine ⟨marker, [], rfl, ?_⟩
    rintro rfl
    exact absurd h (by decide)
  | segment marker payload h hlength => exact ⟨marker, _, rfl, (isSegment_iff h).2.2.2.2⟩

/-- The first item with fill bytes. -/
theorem first_filled : ∀ items : List (ℕ × Item), (∀ i ∈ items, i.1 = 0) ∨
    ∃ before n item after, items = before ++ (n + 1, item) :: after ∧ ∀ i ∈ before, i.1 = 0
  | [] => .inl (by simp)
  | (0, item) :: items => by
    rcases first_filled items with hall | ⟨before, n, filled, after, rfl, hbefore⟩
    · exact .inl (by simpa using hall)
    · exact .inr ⟨(0, item) :: before, n, filled, after, rfl, by simpa using hbefore⟩
  | (n + 1, item) :: items => .inr ⟨[], n, item, items, rfl, by simp⟩

/-- A fill byte loses the dimensions of a short file. -/
theorem lost_of_filled {h : Header} (hfilled : ¬ Unfilled h) (hshort : h.bytes.length ≤ 269) :
    jpegSize h.bytes = (0, 0) := by
  have hframe := length_frame h.frame
  show walk (h.items.flatMap (fun i => fill i.1 ++ i.2.bytes) ++ (fill h.frameFill ++ h.frame.bytes)) = (0, 0)
  have hlength : (h.items.flatMap (fun i => fill i.1 ++ i.2.bytes) ++ (fill h.frameFill ++ h.frame.bytes)).length ≤ 267 := by
    unfold Header.bytes at hshort
    rw [List.length_cons, List.length_cons] at hshort
    omega
  rcases first_filled h.items with hall | ⟨before, n, item, after, hitems, hbefore⟩
  · -- the fill bytes are those of the frame header
    obtain ⟨n, hn⟩ := Nat.exists_eq_succ_of_ne_zero fun hzero => hfilled ⟨hall, hzero⟩
    have hbytes : h.frame.bytes = 0xff :: h.frame.marker :: h.frame.bytes.drop 2 := rfl
    have hn : h.frameFill = n + 1 := hn
    rw [hn] at hlength ⊢
    have hmore : 9 < (fill (n + 1) ++ h.frame.bytes).length := by
      rw [List.length_append]
      omega
    rw [walk_items hall hmore]
    rw [List.length_append] at hlength
    rw [hbytes] at hlength ⊢
    refine walk_filled (isFrame_apart h.frame.isFrame).2.2.2 n ?_ (by omega)
    rw [List.length_drop]
    omega
  · obtain ⟨marker, more, hbytes, hmarker⟩ := item_head item
    generalize hlater : after.flatMap (fun i => fill i.1 ++ i.2.bytes) ++ (fill h.frameFill ++ h.frame.bytes) = later
    have hlong : 9 < later.length := by
      rw [← hlater, List.length_append, List.length_append]
      omega
    have hsplit : h.items.flatMap (fun i => fill i.1 ++ i.2.bytes) ++ (fill h.frameFill ++ h.frame.bytes) =
        before.flatMap (fun i => fill i.1 ++ i.2.bytes) ++ (fill (n + 1) ++ 0xff :: marker :: (more ++ later)) := by
      rw [hitems, List.flatMap_append, List.flatMap_cons, hbytes, List.append_assoc, List.append_assoc, hlater,
        List.append_assoc]
      rfl
    have hmore : 9 < (fill (n + 1) ++ 0xff :: marker :: (more ++ later)).length := by
      simp only [List.length_append, List.length_cons]
      omega
    rw [hsplit, List.length_append] at hlength
    rw [hsplit, walk_items hbefore hmore]
    refine walk_filled hmarker n ?_ (by omega)
    rw [List.length_append]
    omega

/-- **The dimensions are found** where no marker has fill bytes in front of it; and with
fill bytes they are lost in every short file. -/
theorem dimensions_found (h : Header) : (Unfilled h → Found h) ∧
    (h.bytes.length ≤ 269 → (h.frame.width, h.frame.height) ≠ (0, 0) → ¬ Unfilled h → ¬ Found h) := by
  refine ⟨found_of_unfilled, fun hshort hsize hfilled hfound => ?_⟩
  unfold Found at hfound
  rw [lost_of_filled hfilled hshort] at hfound
  exact hsize hfound.symm

/-- An image of 32 by 16 whose frame header has one fill byte. -/
def oneFill : Header where
  items := [(0, .segment 0xe0 [] (by decide) (by decide))]
  frameFill := 1
  frame := {
    marker := 0xc0
    length := 11
    precision := 8
    height := 16
    width := 32
    rest := [0x01, 0x01, 0x11, 0x00]
    isFrame := by decide
    length_ge := by decide
    length_lt := by decide
    height_lt := by decide
    width_lt := by decide
    rest_ne := by decide }

/-- Its dimensions are not found. -/
theorem oneFill_lost : ¬ Found oneFill := by
  intro hfound
  have hlost : jpegSize oneFill.bytes = (0, 0) :=
    lost_of_filled (fun hu => absurd hu.2 (by decide)) (by decide +kernel)
  rw [Found, hlost] at hfound
  exact absurd hfound (by decide)

end AgentCore.JpegSize
