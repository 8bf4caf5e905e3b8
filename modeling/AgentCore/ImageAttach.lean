/-
# Inline images in a history

`image_attach.py`. `attach_images` puts the images of a tool result into its
message, or a note that they were withheld. `evict_old_images`: of the inline
images of a history only the newest few stay. The walk is newest first, over the
messages and within each message; an evicted image leaves a sentence behind, and
a message left with no image goes back to plain text. Messages keep their part
in the pairing of calls and results (`evictOldImages_sameShape`).
-/
import AgentCore.Pairing

namespace AgentCore

/-! ### Attaching -/

inductive WireProtocol
  | chatCompletions | anthropic | responses | bedrock
  deriving DecidableEq, Repr

def WireProtocol.literal : WireProtocol → String
  | .chatCompletions => "chat_completions"
  | .anthropic => "anthropic"
  | .responses => "responses"
  | .bedrock => "bedrock"

/-- What attaching reads of a `ModelProfile`. -/
structure ImageProfile where
  modelId : String
  supportsImages : Bool := false
  protocol : WireProtocol := .chatCompletions
  deriving DecidableEq, Repr

/-- An image of a tool's structured output; without a declared size its width
and height are zero. -/
structure ImageAttachment where
  mimeType : String
  data : String
  label : String := ""
  width : ℤ := 0
  height : ℤ := 0
  deriving DecidableEq, Repr

/-- Estimated prompt tokens of an image, never zero. -/
def imageTokens (image : ImageAttachment) : ℕ :=
  if image.width ≤ 0 ∨ image.height ≤ 0 then 2400 else max 1 (image.width.toNat * image.height.toNat / 1024)

/-- `_text_content`. -/
def textContent (m : Message) : String :=
  match m.content with
  | .none => ""
  | .text s => s
  | .blocks bs =>
    let parts := bs.filterMap fun b =>
      match b with
      | .text t => some t
      | .other type t _ => if type = "text" then some t else none
      | _ => none
    Text.join "\n" (parts.filter (· ≠ ""))

def withheldNote (images : List ImageAttachment) (why : String) : String :=
  let named := Text.join ", " ((images.map (·.label)).filter (· ≠ ""))
  let subject := if images.length = 1 then "1 image" else toString images.length ++ " images"
  "[" ++ subject ++ (if named ≠ "" then " (" ++ named ++ ")" else "") ++ " could not be shown to you: " ++ why ++
    ". You have NOT " ++ "seen this image. Do not describe, transcribe, or draw any conclusion " ++
    "from its contents.]"

/-- Why the images may not go on the wire, or nothing. -/
def withheldWhy (profile : ImageProfile) : String :=
  if profile.supportsImages = false then "the model in use (" ++ profile.modelId ++ ") cannot accept images"
  else if profile.protocol ≠ .chatCompletions then
    "inline images are not implemented for the " ++ profile.protocol.literal ++ " " ++ "wire protocol"
  else ""

def imageBlock (image : ImageAttachment) : Block :=
  .imageUrl ("data:" ++ image.mimeType ++ ";base64," ++ image.data)

def imageEntry (image : ImageAttachment) : ImageMeta := ⟨image.label, imageTokens image⟩

/-- The message with the images of its result, or with a note that they are
withheld. -/
def attachImages (profile : ImageProfile) (images : List ImageAttachment) (m : Message) : Message :=
  if images = [] then m
  else
    let text := textContent m
    if withheldWhy profile ≠ "" then
      let note := withheldNote images (withheldWhy profile)
      { m with content := .text (if text ≠ "" then text ++ "\n\n" ++ note else note) }
    else
      { m with
        content := .blocks ((if text ≠ "" then [.text text] else []) ++ images.map imageBlock)
        imageMeta := images.map imageEntry }

/-! ### Evicting -/

def Block.isImage : Block → Bool
  | .imageUrl _ => true
  | _ => false

/-- `entry.get("text")` of a keyed block. -/
def Block.textKey : Block → String
  | .text s => s
  | .other _ t _ => t
  | _ => ""

def evictedNote (entry : ImageMeta) : String :=
  "[An image" ++ (if entry.label ≠ "" then " " ++ entry.label else "") ++
    " was here and has been dropped from context to make " ++
    "room. You can no longer see it. Read it again if you still need it, " ++
    "and do not rely on remembering what it showed.]"

/-- The blocks with the first `drop` images replaced by a sentence, and the
bookkeeping of the others; `seen` images are passed. -/
def rebuildBlocks (drop : ℕ) (info : List ImageMeta) : ℕ → List Block → List Block × List ImageMeta
  | _, [] => ([], [])
  | seen, b :: bs =>
    if b.isImage then
      let entry := (info[seen]?).getD ⟨"", 0⟩
      let (rebuilt, surviving) := rebuildBlocks drop info (seen + 1) bs
      if seen < drop then (.text (evictedNote entry) :: rebuilt, surviving)
      else (b :: rebuilt, entry :: surviving)
    else
      let (rebuilt, surviving) := rebuildBlocks drop info seen bs
      (b :: rebuilt, surviving)

/-- One message of the walk, `room` images still being allowed; with the room
left after it. -/
def evictFrom (room : ℕ) (m : Message) : Message × ℕ :=
  match m.content with
  | .blocks bs =>
    let images := bs.countP Block.isImage
    if images ≤ room then (m, room - images)
    else
      let (rebuilt, surviving) := rebuildBlocks (images - room) m.imageMeta 0 bs
      if surviving ≠ [] then ({ m with content := .blocks rebuilt, imageMeta := surviving }, 0)
      else
        ({ m with content := .text (Text.join "\n" ((rebuilt.map Block.textKey).filter (· ≠ ""))),
                  imageMeta := [] }, 0)
  | _ => (m, room)

/-- The walk over the messages, newest first. -/
def evictNewestFirst : ℕ → History → History
  | _, [] => []
  | room, m :: ms => (evictFrom room m).1 :: evictNewestFirst (evictFrom room m).2 ms

def evictOldImages (messages : History) (maxImages : ℤ) : History :=
  if maxImages < 0 then messages else (evictNewestFirst maxImages.toNat messages.reverse).reverse

theorem evictFrom_sameShape (room : ℕ) (m : Message) : SameShape m (evictFrom room m).1 := by
  unfold evictFrom
  split
  · dsimp only
    split_ifs
    all_goals exact ⟨rfl, rfl, rfl⟩
  · exact .refl m

theorem evictNewestFirst_sameShape : ∀ (room : ℕ) (h : History),
    List.Forall₂ SameShape h (evictNewestFirst room h)
  | _, [] => .nil
  | room, m :: ms => .cons (evictFrom_sameShape room m) (evictNewestFirst_sameShape _ ms)

theorem evictOldImages_sameShape (h : History) (maxImages : ℤ) :
    List.Forall₂ SameShape h (evictOldImages h maxImages) := by
  unfold evictOldImages
  split
  · exact List.forall₂_same.mpr fun m _ => .refl m
  · rw [← List.forall₂_reverse_iff, List.reverse_reverse]
    exact evictNewestFirst_sameShape _ _

end AgentCore
