import Mathlib.Data.List.Induction
import MazeOS.Handshake

/-!
A line editor on lists: what the keys that are typed to a read mean, without
buffers and flags (`feed`). A line ends with Enter, with its 126th character or
with a control code, and what comes after that is no part of it
(`editor_append`). The line buffer of a terminal whose line is open holds what
the editor has made of the strokes (`stroke_edits`).
-/
namespace MazeOS.LineEditor
open MazeOS.Runs MazeOS.Bytes MazeOS.Faults MazeOS.State MazeOS.Display MazeOS.Keyboard MazeOS.KeyboardRead
  MazeOS.LineBuffer MazeOS.Handshake

/-! ### The editor -/

inductive Edit where
  | editing (text : List UInt8)
  | ended (line : List UInt8)
  deriving DecidableEq

/-- A text of 126 characters is a line. -/
def complete (text : List UInt8) : Edit :=
  if text.length < maxBufferSize - 2 then .editing text else .ended (text ++ [newlineChar])

/-- What a stroke does to the text. -/
def edit (text : List UInt8) : Stroke → Edit
  | .backspace => .editing text.dropLast
  | .enter => .ended (text ++ [newlineChar])
  | .tab => .editing (if text.length + 4 < maxBufferSize - 2 then text ++ List.replicate 4 space else text)
  | .char c => complete (text ++ [c])
  | .dead => .editing text
  | .control code => .ended [code]
  | .outside _ => .editing text

def feed : Edit → Stroke → Edit
  | .ended line, _ => .ended line
  | .editing text, stroke => edit text stroke

/-- What the editor makes of the keys. -/
def editor (keys : List Stroke) : Edit := keys.foldl feed (.editing [])

/-- The codes of Ctrl-L, Ctrl-A and Ctrl-C. -/
def IsCode (code : UInt8) : Prop := code = ctrlL ∨ code = ctrlA ∨ code = ctrlC

/-- A key stores no newline as a character, and only the three codes. -/
def IsKey : Stroke → Prop
  | .char c => c ≠ newlineChar
  | .control code => IsCode code
  | _ => True

/-- A line ends with its only newline, or is one of the codes. -/
def IsLine (line : List UInt8) : Prop :=
  (∃ text, line = text ++ [newlineChar] ∧ newlineChar ∉ text) ∨ ∃ code, IsCode code ∧ line = [code]

/-- A text is shorter than a line and holds no newline. -/
def WellEdited : Edit → Prop
  | .editing text => text.length < maxBufferSize - 2 ∧ newlineChar ∉ text
  | .ended line => line.length < maxBufferSize ∧ IsLine line

@[simp] theorem editor_nil : editor [] = .editing [] := rfl

@[simp] theorem editor_snoc (keys : List Stroke) (stroke : Stroke) :
    editor (keys ++ [stroke]) = feed (editor keys) stroke := by
  simp [editor]

/-- What is typed after a line has ended is no part of it. -/
theorem editor_append {keys : List Stroke} {line : List UInt8} (ends : editor keys = .ended line)
    (more : List Stroke) : editor (keys ++ more) = .ended line := by
  induction more using List.reverseRecOn with
  | nil => simpa using ends
  | append_singleton more stroke ih => rw [← List.append_assoc,editor_snoc,ih,feed]

theorem edit_wellEdited {text : List UInt8} {stroke : Stroke} (isKey : IsKey stroke)
    (well : WellEdited (.editing text)) : WellEdited (edit text stroke) := by
  obtain ⟨short,without⟩ := well
  simp only [maxBufferSize] at short
  cases stroke with
  | backspace =>
    refine ⟨?_,fun member => without (List.dropLast_subset _ member)⟩
    simp only [List.length_dropLast,maxBufferSize]
    omega
  | enter =>
    refine ⟨?_,.inl ⟨text,rfl,without⟩⟩
    simp only [List.length_append,List.length_singleton,maxBufferSize]
    omega
  | tab =>
    simp only [edit]
    split
    · rename_i room
      refine ⟨by simpa using room,?_⟩
      simp only [List.mem_append,not_or]
      exact ⟨without,by decide⟩
    · exact ⟨by simpa only [maxBufferSize] using short,without⟩
  | char c =>
    have without' : newlineChar ∉ text ++ [c] := by
      simp only [List.mem_append,List.mem_singleton,not_or]
      exact ⟨without,fun same => isKey same.symm⟩
    simp only [edit,complete]
    split
    · rename_i room
      exact ⟨room,without'⟩
    · refine ⟨?_,.inl ⟨text ++ [c],rfl,without'⟩⟩
      simp only [List.length_append,List.length_singleton,maxBufferSize]
      omega
  | dead => exact ⟨by simpa only [maxBufferSize] using short,without⟩
  | control code => exact ⟨by simp [maxBufferSize],.inr ⟨code,isKey,rfl⟩⟩
  | outside scan1 => exact ⟨by simpa only [maxBufferSize] using short,without⟩

theorem editor_wellEdited {keys : List Stroke} (isKeys : ∀ stroke, stroke ∈ keys → IsKey stroke) :
    WellEdited (editor keys) := by
  induction keys using List.reverseRecOn with
  | nil => exact ⟨by decide,by simp⟩
  | append_singleton keys stroke ih =>
    have well := ih fun earlier member => isKeys earlier (List.mem_append_left _ member)
    rw [editor_snoc]
    cases edited : editor keys with
    | ended line => rw [edited] at well; exact well
    | editing text =>
      rw [edited] at well
      exact edit_wellEdited (isKeys stroke (by simp)) well

/-! ### The buffer holds what the editor has made -/

/-- The characters of a line. -/
def content (line : Line) : List UInt8 := taken line.buffer line.bufferSize

/-- A line shows what has become of it: a text that goes on, or a line that has
    ended, and then `ack` is set. -/
def Shows (before after : Line) : Edit → Prop
  | .editing text => content after = text ∧ after.readAck = true ∧ after.ack = before.ack
  | .ended line => content after = line ∧ after.readAck = true ∧ after.ack = true

section
variable {line after : Line}

@[simp] theorem content_length (line : Line) : (content line).length = line.bufferSize := taken_length _ _

theorem pushed_content (line : Line) (c : UInt8) : content (pushed line c) = content line ++ [c] := by
  simp only [content,pushed,taken_succ,Function.update_self]
  congr 1
  apply taken_congr
  intro i inside
  exact Function.update_of_ne (Nat.ne_of_lt inside) _ _

theorem erase_content (some : line.bufferSize ≠ 0) (erased : erase line = .ok after) :
    content after = (content line).dropLast ∧ after.readAck = line.readAck ∧ after.ack = line.ack := by
  have same := erase_eq_ok erased
  subst same
  refine ⟨?_,rfl,rfl⟩
  have size : line.bufferSize = (line.bufferSize - 1) + 1 := by omega
  have last : content line = taken line.buffer (line.bufferSize - 1) ++ [line.buffer (line.bufferSize - 1)] := by
    rw [← taken_succ,← size,content]
  rw [last,List.dropLast_concat,content]
  apply taken_congr
  intro i inside
  exact Function.update_of_ne (Nat.ne_of_lt inside) _ _

theorem typeChar_content {c : UInt8} (reads : line.readAck = true) (typed : typeChar line c = .ok after) :
    content after = content line ++ [c] ∧ after.readAck = true ∧ after.ack = line.ack := by
  rw [typeChar_open c reads] at typed
  rw [append_eq_ok typed]
  exact ⟨pushed_content line c,reads,rfl⟩

theorem spaces_content (n : Nat) (reads : line.readAck = true) (typed : spaces n line = .ok after) :
    content after = content line ++ List.replicate n space ∧ after.readAck = true ∧ after.ack = line.ack := by
  induction n generalizing line with
  | zero => cases typed; exact ⟨by simp,reads,rfl⟩
  | succ n ih =>
    obtain ⟨between,first,rest⟩ := bind_eq_ok.mp typed
    obtain ⟨same,reads',ack⟩ := typeChar_content reads first
    obtain ⟨same',reads'',ack'⟩ := ih reads' rest
    refine ⟨?_,reads'',ack'.trans ack⟩
    rw [same',same,List.append_assoc,List.replicate_succ,List.singleton_append]

/-- While a line is open, a stroke does to its buffer what it does to the text. -/
theorem stroke_edits {stroke : Stroke} (reads : line.readAck = true) (short : line.bufferSize < maxBufferSize - 2)
    (made : strokeLine line stroke = .ok after) : Shows line after (edit (content line) stroke) := by
  cases stroke with
  | backspace =>
    simp only [strokeLine] at made
    by_cases empty : line.bufferSize = 0
    · rw [if_neg fun both => both.1 empty] at made
      cases made
      have nothing : content line = [] := List.eq_nil_of_length_eq_zero ((content_length line).trans empty)
      exact ⟨by rw [nothing]; rfl,reads,rfl⟩
    · rw [if_pos ⟨empty,reads⟩] at made
      obtain ⟨same,reads',ack⟩ := erase_content empty made
      exact ⟨same,reads'.trans reads,ack⟩
  | enter =>
    obtain ⟨typed,types,woken⟩ := bind_eq_ok.mp made
    obtain ⟨same,reads',_⟩ := typeChar_content reads types
    cases woken
    exact ⟨same,reads',rfl⟩
  | tab =>
    obtain ⟨spaced,types,filled⟩ := bind_eq_ok.mp made
    by_cases room : line.bufferSize + 4 < maxBufferSize - 2
    · rw [if_pos room] at types
      obtain ⟨same,reads',ack⟩ := spaces_content 4 reads types
      have short' : spaced.bufferSize < maxBufferSize - 2 := by
        rw [← content_length,same,List.length_append,content_length,List.length_replicate]
        exact room
      rw [fill_short short'] at filled
      cases filled
      simp only [edit,content_length,if_pos room]
      exact ⟨same,reads',ack⟩
    · rw [if_neg room] at types
      cases types
      rw [fill_short short] at filled
      cases filled
      simp only [edit,content_length,if_neg room]
      exact ⟨rfl,reads,rfl⟩
  | char c =>
    obtain ⟨typed,types,filled⟩ := bind_eq_ok.mp made
    obtain ⟨same,reads',ack⟩ := typeChar_content reads types
    have size : (content line ++ [c]).length = typed.bufferSize := by rw [← same,content_length]
    simp only [edit,complete,size]
    rcases fill_eq_ok filled with ⟨full,rfl⟩ | ⟨short',rfl⟩
    · rw [if_neg (Nat.not_lt_of_le full),← same,← pushed_content]
      exact ⟨rfl,reads',rfl⟩
    · rw [if_pos short']
      exact ⟨same,reads',ack⟩
  | dead =>
    rw [strokeLine,fill_short short] at made
    cases made
    exact ⟨rfl,reads,rfl⟩
  | control code =>
    cases made
    exact ⟨rfl,reads,rfl⟩
  | outside scan1 => cases made

end

end MazeOS.LineEditor
