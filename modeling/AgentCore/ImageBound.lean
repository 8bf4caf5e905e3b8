/-
# How many images a history carries

Tool results attach their images to their messages, and eviction thins them out
again, with any limit and as often as the loop runs it. In the histories that
come of it the bookkeeping of a message is that of its images, position by
position, and an eviction keeps exactly the newest images: every other one leaves
a note, and nothing else of the text is lost (`image_history_bound`).

Key definitions: `WithImages`, `Tidy`, `Trimmed`.
Key theorem: `image_history_bound`.
-/
import AgentCore.ImageAttach

namespace AgentCore

/-- The entries of a list content. -/
def blocksOf (m : Message) : List Block :=
  match m.content with
  | .blocks bs => bs
  | _ => []

/-- The inline images of a message. -/
def inlineImages (m : Message) : List Block := (blocksOf m).filter Block.isImage

/-- The inline images of a message, each with its bookkeeping. -/
def carried (m : Message) : List (Block × ImageMeta) := (inlineImages m).zip m.imageMeta

def Block.text? : Block → Option String
  | .text t => some t
  | _ => none

/-- What the text blocks of a message say. -/
def textBlocks (m : Message) : List String := (blocksOf m).filterMap Block.text?

/-- A message with no image, and no bookkeeping of any. -/
def Imageless (m : Message) : Prop := inlineImages m = [] ∧ m.imageMeta = []

/-- The histories that attaching and evicting build: messages come without images,
their results' images are attached to them, and eviction runs with any limit. -/
inductive WithImages : History → Prop
  | nil : WithImages []
  | attach {h : History} {m : Message} (profile : ImageProfile) (images : List ImageAttachment) (hh : WithImages h)
    (hm : Imageless m) : WithImages (h ++ [attachImages profile images m])
  | evict {h : History} (maxImages : ℤ) (hh : WithImages h) : WithImages (evictOldImages h maxImages)

/-- What eviction made of a message: nothing, or the images that went have left
their notes among its texts, as blocks beside the images that stay, or in one
text where none stays. -/
def Trimmed (m m' : Message) : Prop :=
  m' = m ∨
  { m' with content := m.content, imageMeta := m.imageMeta } = m ∧
  ∃ texts : List String,
    texts.Perm ((m.imageMeta.take ((inlineImages m).length - (inlineImages m').length)).map evictedNote ++ textBlocks m) ∧
    (textBlocks m).Sublist texts ∧
    (inlineImages m' ≠ [] ∧ textBlocks m' = texts ∨ m'.content = .text (Text.join "\n" (texts.filter (· ≠ ""))))

/-! ### The blocks of one message -/

/-- The blocks that attaching and evicting write. -/
def Block.IsPlain (b : Block) : Prop := b.isImage = true ∨ b.text?.isSome = true

theorem rebuildBlocks_images (drop : ℕ) (info : List ImageMeta) : ∀ (seen : ℕ) (bs : List Block),
    (rebuildBlocks drop info seen bs).1.filter Block.isImage = (bs.filter Block.isImage).drop (drop - seen)
  | _, [] => by simp [rebuildBlocks]
  | seen, b :: bs => by
    by_cases hb : b.isImage = true
    · have ih := rebuildBlocks_images drop info (seen + 1) bs
      rw [rebuildBlocks, if_pos hb, List.filter_cons_of_pos hb]
      by_cases hs : seen < drop
      · obtain ⟨k, hk⟩ : ∃ k, drop - seen = k + 1 := ⟨drop - seen - 1, by omega⟩
        have hk' : drop - (seen + 1) = k := by omega
        simp only [if_pos hs]
        rw [List.filter_cons_of_neg (by simp [Block.isImage]), ih, hk, hk', List.drop_succ_cons]
      · have hzero : drop - seen = 0 := by omega
        have hzero' : drop - (seen + 1) = 0 := by omega
        simp only [if_neg hs]
        rw [List.filter_cons_of_pos hb, ih, hzero, hzero', List.drop_zero, List.drop_zero]
    · have ih := rebuildBlocks_images drop info seen bs
      rw [rebuildBlocks, if_neg hb, List.filter_cons_of_neg hb, List.filter_cons_of_neg hb, ih]

theorem rebuildBlocks_surviving (drop : ℕ) (info : List ImageMeta) : ∀ (seen : ℕ) (bs : List Block),
    info.length = seen + (bs.filter Block.isImage).length →
    (rebuildBlocks drop info seen bs).2 = info.drop (max drop seen)
  | seen, [], h => by
    rw [rebuildBlocks]
    exact (List.drop_eq_nil_of_le (by simp at h; omega)).symm
  | seen, b :: bs, h => by
    by_cases hb : b.isImage = true
    · rw [List.filter_cons_of_pos hb, List.length_cons] at h
      have ih := rebuildBlocks_surviving drop info (seen + 1) bs (by omega)
      rw [rebuildBlocks, if_pos hb]
      by_cases hs : seen < drop
      · simp only [if_pos hs]
        rw [ih, max_eq_left (by omega), max_eq_left (by omega)]
      · have hlt : seen < info.length := by omega
        simp only [if_neg hs]
        rw [ih, max_eq_right (by omega), max_eq_right (by omega), List.getElem?_eq_getElem hlt, Option.getD_some,
          ← List.drop_eq_getElem_cons hlt]
    · rw [List.filter_cons_of_neg hb] at h
      rw [rebuildBlocks, if_neg hb]
      exact rebuildBlocks_surviving drop info seen bs h

theorem rebuildBlocks_plain {drop : ℕ} {info : List ImageMeta} : ∀ {seen : ℕ} {bs : List Block},
    (∀ b ∈ bs, b.IsPlain) → ∀ b ∈ (rebuildBlocks drop info seen bs).1, b.IsPlain
  | _, [], _, b, hb => absurd hb List.not_mem_nil
  | seen, c :: bs, hplain, b, hb => by
    have hrest : ∀ d ∈ bs, d.IsPlain := fun d hd => hplain d (List.mem_cons_of_mem _ hd)
    rw [rebuildBlocks] at hb
    split at hb
    · simp only at hb
      split at hb
      · rcases List.mem_cons.mp hb with rfl | hb
        · exact .inr rfl
        · exact rebuildBlocks_plain hrest b hb
      · rcases List.mem_cons.mp hb with rfl | hb
        · exact hplain _ List.mem_cons_self
        · exact rebuildBlocks_plain hrest b hb
    · rcases List.mem_cons.mp hb with rfl | hb
      · exact hplain _ List.mem_cons_self
      · exact rebuildBlocks_plain hrest b hb

/-- The notes of the images that go stand among the texts, which keep their
order. -/
theorem rebuildBlocks_texts (drop : ℕ) (info : List ImageMeta) : ∀ (seen : ℕ) (bs : List Block),
    info.length = seen + (bs.filter Block.isImage).length →
    ((rebuildBlocks drop info seen bs).1.filterMap Block.text?).Perm
        (((info.drop seen).take (drop - seen)).map evictedNote ++ bs.filterMap Block.text?) ∧
      (bs.filterMap Block.text?).Sublist ((rebuildBlocks drop info seen bs).1.filterMap Block.text?)
  | seen, [], h => by
    have hnil : info.drop seen = [] := List.drop_eq_nil_of_le (by simp at h; omega)
    rw [rebuildBlocks, hnil]
    simp
  | seen, b :: bs, h => by
    by_cases hb : b.isImage = true
    · have hno : b.text? = none := by
        cases b <;> simp_all [Block.isImage, Block.text?]
      rw [List.filter_cons_of_pos hb, List.length_cons] at h
      obtain ⟨hperm, hsub⟩ := rebuildBlocks_texts drop info (seen + 1) bs (by omega)
      rw [rebuildBlocks, if_pos hb, List.filterMap_cons_none hno]
      have hlt : seen < info.length := by omega
      by_cases hs : seen < drop
      · obtain ⟨k, hk⟩ : ∃ k, drop - seen = k + 1 := ⟨drop - seen - 1, by omega⟩
        have hk' : drop - (seen + 1) = k := by omega
        simp only [if_pos hs]
        rw [List.filterMap_cons_some (rfl : Block.text? (.text _) = some _), List.getElem?_eq_getElem hlt,
          Option.getD_some, List.drop_eq_getElem_cons hlt, hk, List.take_succ_cons, List.map_cons, List.cons_append]
        rw [hk'] at hperm
        exact ⟨hperm.cons _, hsub.cons _⟩
      · have hzero : drop - seen = 0 := by omega
        have hzero' : drop - (seen + 1) = 0 := by omega
        simp only [if_neg hs]
        rw [List.filterMap_cons_none hno, hzero]
        rw [hzero'] at hperm
        exact ⟨hperm, hsub⟩
    · rw [List.filter_cons_of_neg hb] at h
      obtain ⟨hperm, hsub⟩ := rebuildBlocks_texts drop info seen bs h
      rw [rebuildBlocks, if_neg hb]
      cases ht : b.text? with
      | none =>
        rw [List.filterMap_cons_none ht, List.filterMap_cons_none ht]
        exact ⟨hperm, hsub⟩
      | some t =>
        rw [List.filterMap_cons_some ht, List.filterMap_cons_some ht]
        exact ⟨(hperm.cons t).trans List.perm_middle.symm, hsub.cons_cons t⟩

/-- Of plain blocks, the text keys that say something are the text blocks that
do. -/
theorem filter_textKey : ∀ {bs : List Block}, (∀ b ∈ bs, b.IsPlain) →
    (bs.map Block.textKey).filter (· ≠ "") = (bs.filterMap Block.text?).filter (· ≠ "")
  | [], _ => rfl
  | b :: bs, hplain => by
    have ih := filter_textKey fun c hc => hplain c (List.mem_cons_of_mem _ hc)
    have hb := hplain b List.mem_cons_self
    cases b with
    | text t =>
      rw [List.map_cons, List.filterMap_cons_some (rfl : Block.text? (.text t) = some t), List.filter_cons,
        List.filter_cons, ih]
      rfl
    | imageUrl url =>
      rw [List.map_cons, List.filterMap_cons_none rfl, List.filter_cons_of_neg (by simp [Block.textKey]), ih]
    | str s => simp [Block.IsPlain, Block.isImage, Block.text?] at hb
    | thinking t sig => simp [Block.IsPlain, Block.isImage, Block.text?] at hb
    | redactedThinking d => simp [Block.IsPlain, Block.isImage, Block.text?] at hb
    | other ty t c => simp [Block.IsPlain, Block.isImage, Block.text?] at hb

/-! ### One message -/

/-- A message whose bookkeeping is that of its images, and whose images stand
among texts. -/
structure Tidy (m : Message) : Prop where
  aligned : m.imageMeta.length = (inlineImages m).length
  plain : inlineImages m ≠ [] → ∀ b ∈ blocksOf m, b.IsPlain

theorem Imageless.tidy {m : Message} (h : Imageless m) : Tidy m where
  aligned := by rw [h.1, h.2, List.length_nil, List.length_nil]
  plain := fun hne => absurd h.1 hne

theorem filter_imageBlock (images : List ImageAttachment) :
    (images.map imageBlock).filter Block.isImage = images.map imageBlock := by
  refine List.filter_eq_self.mpr fun b hb => ?_
  obtain ⟨image, -, rfl⟩ := List.mem_map.mp hb
  rfl

theorem attachImages_tidy (profile : ImageProfile) (images : List ImageAttachment) {m : Message} (hm : Imageless m) :
    Tidy (attachImages profile images m) := by
  unfold attachImages
  split
  · exact hm.tidy
  · dsimp only
    split
    · exact ⟨by rw [hm.2]; rfl, fun hne => absurd rfl hne⟩
    · refine ⟨?_, fun _ b hb => ?_⟩
      · have himages : (((if textContent m ≠ "" then [Block.text (textContent m)] else []) ++
            images.map imageBlock).filter Block.isImage) = images.map imageBlock := by
          rw [List.filter_append, filter_imageBlock]
          split <;> rfl
        unfold inlineImages blocksOf
        rw [himages, List.length_map, List.length_map]
      · rcases List.mem_append.mp hb with hb | hb
        · split at hb
          · rw [List.mem_singleton.mp hb]
            exact .inr rfl
          · exact absurd hb List.not_mem_nil
        · obtain ⟨image, -, rfl⟩ := List.mem_map.mp hb
          exact .inl rfl

/-- What eviction does to one message, with room for `room` images. -/
structure Evicts (room : ℕ) (m m' : Message) : Prop where
  tidy : Tidy m'
  trimmed : Trimmed m m'
  images : inlineImages m' = (inlineImages m).drop ((inlineImages m).length - room)
  info : m'.imageMeta = m.imageMeta.drop ((inlineImages m).length - room)

section One

variable {room : ℕ} {m : Message}

theorem evictFrom_of_le (h : (inlineImages m).length ≤ room) :
    evictFrom room m = (m, room - (inlineImages m).length) := by
  unfold inlineImages blocksOf at h ⊢
  unfold evictFrom
  cases hc : m.content with
  | none => simp
  | text s => simp
  | blocks bs =>
    rw [hc] at h
    simp only at h ⊢
    rw [← List.countP_eq_length_filter] at h ⊢
    rw [if_pos h]

theorem Evicts.of_le (hm : Tidy m) (h : (inlineImages m).length ≤ room) : Evicts room m m := by
  have hzero : (inlineImages m).length - room = 0 := by omega
  exact ⟨hm, .inl rfl, by rw [hzero, List.drop_zero], by rw [hzero, List.drop_zero]⟩

theorem blocksOf_blocks {bs : List Block} (hc : m.content = .blocks bs) : blocksOf m = bs := by
  rw [blocksOf, hc]

theorem inlineImages_blocks {bs : List Block} (hc : m.content = .blocks bs) :
    inlineImages m = bs.filter Block.isImage := by
  rw [inlineImages, blocksOf_blocks hc]

theorem inlineImages_text {s : String} (hc : m.content = .text s) : inlineImages m = [] := by
  rw [inlineImages, blocksOf, hc]
  rfl

section Rebuilt

variable {m' : Message} {bs : List Block} (hm : Tidy m) (hc : m.content = .blocks bs)
  (h : room < (inlineImages m).length) (hframe : { m' with content := m.content, imageMeta := m.imageMeta } = m)

include hm hc h hframe

/-- Some of the images are gone. -/
theorem Evicts.of_rebuilt (hroom : room ≠ 0)
    (hc' : m'.content = .blocks (rebuildBlocks ((inlineImages m).length - room) m.imageMeta 0 bs).1)
    (hinfo : m'.imageMeta = m.imageMeta.drop ((inlineImages m).length - room)) : Evicts room m m' := by
  have hlen : m.imageMeta.length = 0 + (bs.filter Block.isImage).length := by
    rw [hm.aligned, inlineImages_blocks hc, Nat.zero_add]
  have himages : inlineImages m' = (inlineImages m).drop ((inlineImages m).length - room) := by
    rw [inlineImages_blocks hc', rebuildBlocks_images, Nat.sub_zero, ← inlineImages_blocks hc]
  have hleft : (inlineImages m').length = room := by
    rw [himages, List.length_drop]
    omega
  obtain ⟨hperm, hsub⟩ := rebuildBlocks_texts ((inlineImages m).length - room) m.imageMeta 0 bs hlen
  refine ⟨⟨?_, fun _ => ?_⟩, .inr ⟨hframe, textBlocks m', ?_, ?_, .inl ⟨?_, rfl⟩⟩, himages, hinfo⟩
  · rw [hinfo, List.length_drop, hm.aligned, hleft]
    omega
  · have hplain := hm.plain (List.ne_nil_of_length_pos (by omega))
    rw [blocksOf_blocks hc] at hplain
    rw [blocksOf_blocks hc']
    exact rebuildBlocks_plain hplain
  · rw [hleft, textBlocks, textBlocks, blocksOf_blocks hc', blocksOf_blocks hc]
    exact hperm
  · rw [textBlocks, textBlocks, blocksOf_blocks hc', blocksOf_blocks hc]
    exact hsub
  · exact List.ne_nil_of_length_pos (by omega)

/-- All of the images are gone. -/
theorem Evicts.of_emptied (hroom : room = 0)
    (hc' : m'.content = .text (Text.join "\n"
      (((rebuildBlocks ((inlineImages m).length - room) m.imageMeta 0 bs).1.map Block.textKey).filter (· ≠ ""))))
    (hinfo : m'.imageMeta = []) : Evicts room m m' := by
  have hlen : m.imageMeta.length = 0 + (bs.filter Block.isImage).length := by
    rw [hm.aligned, inlineImages_blocks hc, Nat.zero_add]
  have hplain := hm.plain (List.ne_nil_of_length_pos (by omega))
  rw [blocksOf_blocks hc] at hplain
  obtain ⟨hperm, hsub⟩ := rebuildBlocks_texts ((inlineImages m).length - room) m.imageMeta 0 bs hlen
  refine ⟨⟨?_, fun hne => ?_⟩, .inr ⟨hframe,
    (rebuildBlocks ((inlineImages m).length - room) m.imageMeta 0 bs).1.filterMap Block.text?, ?_, ?_, .inr ?_⟩, ?_, ?_⟩
  · rw [hinfo, inlineImages_text hc', List.length_nil, List.length_nil]
  · exact absurd (inlineImages_text hc') hne
  · rw [inlineImages_text hc', List.length_nil, textBlocks, blocksOf_blocks hc]
    rw [hroom] at hperm ⊢
    exact hperm
  · rw [textBlocks, blocksOf_blocks hc]
    exact hsub
  · rw [hc', filter_textKey (rebuildBlocks_plain hplain)]
  · rw [inlineImages_text hc', hroom, Nat.sub_zero, List.drop_length]
  · rw [hinfo, hroom, Nat.sub_zero, ← hm.aligned, List.drop_length]

end Rebuilt

variable (room) in
theorem evictFrom_evicts (hm : Tidy m) :
    Evicts room m (evictFrom room m).1 ∧ (evictFrom room m).2 = room - (inlineImages m).length := by
  by_cases hle : (inlineImages m).length ≤ room
  · rw [evictFrom_of_le hle]
    exact ⟨.of_le hm hle, rfl⟩
  · have hlt : room < (inlineImages m).length := by omega
    have hzero : room - (inlineImages m).length = 0 := by omega
    cases hc : m.content with
    | none => simp [inlineImages, blocksOf, hc] at hlt
    | text s => simp [inlineImages, blocksOf, hc] at hlt
    | blocks bs =>
      have hcount : bs.countP Block.isImage = (inlineImages m).length := by
        rw [inlineImages_blocks hc, List.countP_eq_length_filter]
      have hsurviving : (rebuildBlocks ((inlineImages m).length - room) m.imageMeta 0 bs).2 =
          m.imageMeta.drop ((inlineImages m).length - room) := by
        rw [rebuildBlocks_surviving, Nat.max_zero]
        rw [hm.aligned, inlineImages_blocks hc, Nat.zero_add]
      unfold evictFrom
      rw [hc, hzero]
      simp only [hcount, if_neg hle, hsurviving]
      by_cases hroom : room = 0
      · have hnil : m.imageMeta.drop ((inlineImages m).length - room) = [] :=
          List.drop_eq_nil_of_le (by rw [hm.aligned]; omega)
        rw [if_neg (by simpa using hnil)]
        exact ⟨.of_emptied hm hc hlt rfl hroom rfl rfl, rfl⟩
      · have hne : m.imageMeta.drop ((inlineImages m).length - room) ≠ [] := by
          refine List.ne_nil_of_length_pos ?_
          rw [List.length_drop, hm.aligned]
          omega
        rw [if_pos hne]
        exact ⟨.of_rebuilt hm hc hlt rfl hroom rfl rfl, rfl⟩

end One

/-! ### The history -/

theorem Evicts.carried {room : ℕ} {m m' : Message} (h : Evicts room m m') :
    carried m' = (carried m).drop ((inlineImages m).length - room) := by
  rw [AgentCore.carried, AgentCore.carried, h.images, h.info, List.zip_eq_zipWith, List.zip_eq_zipWith,
    List.drop_zipWith]

/-- The newest of two batches, with room for `room`: what is left of the older
one goes before what is left of the newer. -/
theorem drop_append_newest {α : Type} (older newer : List α) (room : ℕ) :
    older.drop (older.length - (room - newer.length)) ++ newer.drop (newer.length - room) =
      (older ++ newer).drop ((older ++ newer).length - room) := by
  rw [List.drop_append, List.length_append]
  by_cases hle : newer.length ≤ room
  · have hnewer : newer.length - room = 0 := by omega
    have holder : older.length + newer.length - room = older.length - (room - newer.length) := by omega
    have hrest : older.length - (room - newer.length) - older.length = 0 := by omega
    rw [hnewer, holder, hrest]
  · have holder : older.drop (older.length - (room - newer.length)) = [] := List.drop_eq_nil_of_le (by omega)
    have holder' : older.drop (older.length + newer.length - room) = [] := List.drop_eq_nil_of_le (by omega)
    have hnewer : older.length + newer.length - room - older.length = newer.length - room := by omega
    rw [holder, holder', hnewer]

/-- A list read off each message, of which eviction keeps the newest. -/
theorem flatMap_evictNewestFirst {α : Type} {read : Message → List α} (hlen : ∀ m, Tidy m → (read m).length = (inlineImages m).length)
    (hread : ∀ room m m', Evicts room m m' → read m' = (read m).drop ((inlineImages m).length - room)) :
    ∀ (room : ℕ) {h : History}, (∀ m ∈ h, Tidy m) →
      (evictNewestFirst room h).reverse.flatMap read =
        (h.reverse.flatMap read).drop ((h.reverse.flatMap read).length - room)
  | _, [], _ => by simp [evictNewestFirst]
  | room, m :: ms, htidy => by
    have hm := htidy m List.mem_cons_self
    obtain ⟨hevicts, hroom⟩ := evictFrom_evicts room hm
    have ih := flatMap_evictNewestFirst hlen hread (room - (inlineImages m).length)
      fun m hm => htidy m (List.mem_cons_of_mem _ hm)
    rw [evictNewestFirst, hroom, List.reverse_cons, List.reverse_cons, List.flatMap_append, List.flatMap_append, ih,
      List.flatMap_singleton, List.flatMap_singleton, hread room m _ hevicts, ← hlen m hm]
    exact drop_append_newest _ _ room

theorem evictNewestFirst_evicts : ∀ (room : ℕ) {h : History}, (∀ m ∈ h, Tidy m) →
    List.Forall₂ (fun m m' => ∃ room, Evicts room m m') h (evictNewestFirst room h)
  | _, [], _ => .nil
  | room, m :: ms, htidy => by
    have hrest : ∀ m' ∈ ms, Tidy m' := fun m' hm => htidy m' (List.mem_cons_of_mem _ hm)
    exact .cons ⟨room, (evictFrom_evicts room (htidy m List.mem_cons_self)).1⟩ (evictNewestFirst_evicts _ hrest)

/-- With room for all of them nothing changes. -/
theorem evictNewestFirst_of_le : ∀ {room : ℕ} {h : History}, (h.reverse.flatMap inlineImages).length ≤ room →
    evictNewestFirst room h = h
  | _, [], _ => rfl
  | room, m :: ms, hle => by
    rw [List.reverse_cons, List.flatMap_append, List.flatMap_singleton, List.length_append] at hle
    rw [evictNewestFirst, evictFrom_of_le (by omega), evictNewestFirst_of_le (by omega)]

theorem evictOldImages_evicts {h : History} (htidy : ∀ m ∈ h, Tidy m) (maxImages : ℤ) :
    List.Forall₂ (fun m m' => m' = m ∨ ∃ room, Evicts room m m') h (evictOldImages h maxImages) := by
  unfold evictOldImages
  split
  · exact List.forall₂_same.mpr fun m _ => .inl rfl
  · rw [← List.forall₂_reverse_iff, List.reverse_reverse]
    have hevicts := evictNewestFirst_evicts maxImages.toNat (h := h.reverse)
      fun m hm => htidy m (List.mem_reverse.mp hm)
    exact hevicts.imp fun _ _ h => .inr h

/-- Attaching and evicting keep every message tidy. -/
theorem WithImages.tidy {h : History} (hh : WithImages h) : ∀ m ∈ h, Tidy m := by
  induction hh with
  | nil => exact fun m hm => absurd hm List.not_mem_nil
  | attach profile images hh hm ih =>
    intro m hmem
    rcases List.mem_append.mp hmem with hmem | hmem
    · exact ih m hmem
    · rw [List.mem_singleton.mp hmem]
      exact attachImages_tidy profile images hm
  | @evict h maxImages hh ih =>
    intro m' hmem
    obtain ⟨m, hm, hcase⟩ := Groups.exists_of_forall₂_right (evictOldImages_evicts ih maxImages) hmem
    rcases hcase with rfl | ⟨room, hevicts⟩
    · exact ih _ hm
    · exact hevicts.tidy

theorem evictOldImages_natCast (h : History) (n : ℕ) :
    evictOldImages h n = (evictNewestFirst n h.reverse).reverse := by
  rw [evictOldImages, if_neg (by omega), Int.toNat_natCast]

theorem flatMap_evictOldImages {α : Type} {read : Message → List α}
    (hlen : ∀ m, Tidy m → (read m).length = (inlineImages m).length)
    (hread : ∀ room m m', Evicts room m m' → read m' = (read m).drop ((inlineImages m).length - room))
    {h : History} (htidy : ∀ m ∈ h, Tidy m) (n : ℕ) :
    (evictOldImages h n).flatMap read = (h.flatMap read).drop ((h.flatMap read).length - n) := by
  have hrev : ∀ m ∈ h.reverse, Tidy m := fun m hm => htidy m (List.mem_reverse.mp hm)
  have hkept := flatMap_evictNewestFirst hlen hread n hrev
  rw [List.reverse_reverse] at hkept
  rw [evictOldImages_natCast, hkept]

theorem Evicts.trimmed_or {m m' : Message} (h : m' = m ∨ ∃ room, Evicts room m m') : Trimmed m m' := by
  rcases h with h | ⟨room, h⟩
  · exact .inl h
  · exact h.trimmed

/-- **The image history is bounded.** After an eviction at most `n` images are
left, the newest ones in their order, each with its own bookkeeping; every message
has as many entries of bookkeeping as images; the texts are all there, with a note
for each image that went; and evicting again changes nothing. -/
theorem image_history_bound {h : History} (hh : WithImages h) (n : ℕ) :
    ((evictOldImages h n).flatMap inlineImages).length ≤ n ∧
    (evictOldImages h n).flatMap inlineImages =
      (h.flatMap inlineImages).drop ((h.flatMap inlineImages).length - n) ∧
    (evictOldImages h n).flatMap carried = (h.flatMap carried).drop ((h.flatMap inlineImages).length - n) ∧
    (∀ m ∈ evictOldImages h n, m.imageMeta.length = (inlineImages m).length) ∧
    List.Forall₂ Trimmed h (evictOldImages h n) ∧
    evictOldImages (evictOldImages h n) n = evictOldImages h n := by
  have hkept := flatMap_evictOldImages (fun _ _ => rfl) (fun _ _ _ h => h.images) hh.tidy n
  have hbound : ((evictOldImages h n).flatMap inlineImages).length ≤ n := by
    rw [hkept, List.length_drop]
    omega
  refine ⟨hbound, hkept, ?_, fun m hm => ((WithImages.evict n hh).tidy m hm).aligned, ?_, ?_⟩
  · have hlen : ∀ m, Tidy m → (carried m).length = (inlineImages m).length := fun m hm => by
      rw [carried, List.length_zip, hm.aligned, Nat.min_self]
    have hcarried := flatMap_evictOldImages hlen (fun _ _ _ h => h.carried) hh.tidy n
    have hsame : (h.flatMap carried).length = (h.flatMap inlineImages).length := by
      rw [List.length_flatMap, List.length_flatMap]
      exact congrArg List.sum (List.map_congr_left fun m hm => hlen m (hh.tidy m hm))
    rw [hcarried, hsame]
  · exact (evictOldImages_evicts hh.tidy n).imp fun _ _ => Evicts.trimmed_or
  · rw [evictOldImages_natCast (evictOldImages h n), evictNewestFirst_of_le, List.reverse_reverse]
    rwa [List.reverse_reverse]

/-- Two results, with two images and with one. -/
def threeShots : History :=
  let seeing : ImageProfile := { modelId := "m", supportsImages := true }
  let shot (label : String) : ImageAttachment := { mimeType := "image/png", data := label, label := label }
  [attachImages seeing [shot "a", shot "b"] (toolMsg "pages" "c1"), attachImages seeing [shot "c"] (toolMsg "" "c2")]

theorem threeShots_bound :
    WithImages threeShots ∧ (threeShots.flatMap inlineImages).length = 3 ∧
    ((evictOldImages threeShots 2).flatMap carried).map (·.2.label) = ["b", "c"] ∧
    (evictOldImages threeShots 1).head?.map (·.content) =
      some (.text (Text.join "\n" ["pages", evictedNote ⟨"a", 2400⟩, evictedNote ⟨"b", 2400⟩])) ∧
    ((evictOldImages threeShots (2 : ℕ)).flatMap inlineImages).length ≤ 2 ∧
    evictOldImages (evictOldImages threeShots (2 : ℕ)) (2 : ℕ) = evictOldImages threeShots (2 : ℕ) := by
  have hh : WithImages threeShots := .attach _ _ (.attach _ _ .nil ⟨rfl, rfl⟩) ⟨rfl, rfl⟩
  have hbound := image_history_bound hh 2
  exact ⟨hh, by decide, by decide, by decide +kernel, hbound.1, hbound.2.2.2.2.2⟩

end AgentCore
