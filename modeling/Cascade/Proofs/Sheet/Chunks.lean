/-
  Cascade.Proofs.Sheet.Chunks — how the bytes of a sheet come plays no part. Whatever a
  source replies, reading from it is one run over all the bytes it serves, and then the
  end of the input or the failure of the source (`read_of_chunks`):

  1. Without a failure it comes to the sheet, or to the error on its line, that the bytes
     in one piece come to (`readWhole`), and the embedder is asked the same in the same order.
  2. A failure is the answer only if nothing in the bytes before it is refused; otherwise
     it is the error of the first byte refused (`readBroken`).
  3. Interrupted reads change nothing.

  The same holds of a reader that is handed a text in pieces, wherever the cuts are.
-/

import Cascade.Proofs.Builder.Rules
import Cascade.Proofs.Reader.Lines
import Cascade.Proofs.Sheet.Reading

namespace Cascade

variable {σ V : Type}

/-- The same host, which beside its memory keeps what it was asked, in order. -/
def Host.recording (host : Host σ V) : Host (σ × List Question) V where
  identify m name :=
    let (property, memory) := host.identify m.1 name
    (property, memory, m.2 ++ [.identify name])
  interpret m p text :=
    let (value, memory) := host.interpret m.1 p text
    (value, memory, m.2 ++ [.interpret p text])

namespace Sheet

variable (host : Host σ V) (memory : σ) (supply : Supply)

/-! ## All bytes in one piece -/

/-- A new builder after the bytes went through a new reader in one piece. -/
def buildWhole (bs : List UInt8) : Builder σ V × Supply :=
  ({ memory } : Builder σ V).addAll host supply (({} : Reader).run bs).events

/-- One piece, and then the end of the input. -/
def readWhole (bs : List UInt8) : Reading σ V where
  result :=
    match (({} : Reader).run bs).ended.error? with
    | none => .ok (ofStyles (buildWhole host memory supply bs).1.finished)
    | some e => .error (.syntactic e)
  memory := (buildWhole host memory supply bs).1.memory
  supply := (buildWhole host memory supply bs).2

/-- One piece, and then a failure of the source. -/
def readBroken (fault : IoFault) (bs : List UInt8) : Reading σ V where
  result := .error <|
    match (({} : Reader).run bs).error? with
    | none => .io fault
    | some e => .syntactic e
  memory := (buildWhole host memory supply bs).1.memory
  supply := (buildWhole host memory supply bs).2

theorem conclude_whole (bs : List UInt8) :
    conclude host { memory } supply (({} : Reader).run bs) none = readWhole host memory supply bs := by
  unfold conclude readWhole buildWhole Outcome.ended
  cases h : (({} : Reader).run bs).fault? with
  | some f => simp [Outcome.error?, Outcome.andThen, h]
  | none =>
    cases he : (({} : Reader).run bs).reader.endFault? <;>
      simp [Outcome.error?, Outcome.andThen, h, he, endReading, Reader.endError?]

theorem conclude_broken (fault : IoFault) (bs : List UInt8) :
    conclude host { memory } supply (({} : Reader).run bs) (some fault) =
      readBroken host memory supply fault bs := by
  unfold conclude readBroken buildWhole
  cases h : (({} : Reader).run bs).error? <;> rfl

/-! ## Bytes as a source serves them -/

theorem served_uninterrupted (source : List Reply) :
    Source.served (source.filter (· ≠ .interrupted)) = Source.served source ∧
      Source.halt? (source.filter (· ≠ .interrupted)) = Source.halt? source := by
  induction source with
  | nil => exact ⟨rfl, rfl⟩
  | cons reply rest ih =>
    obtain ⟨hserved, hhalt⟩ := ih
    rcases reply with ⟨_ | ⟨x, xs⟩⟩ | _ | fault
    · exact ⟨rfl, rfl⟩
    · exact ⟨congrArg (x :: xs ++ ·) hserved, hhalt⟩
    · exact ⟨hserved, hhalt⟩
    · exact ⟨rfl, rfl⟩

theorem read_eq (source : List Reply) :
    read host memory supply source =
      match Source.halt? source with
      | none => readWhole host memory supply (Source.served source)
      | some fault => readBroken host memory supply fault (Source.served source) := by
  have hread : read host memory supply source =
      conclude host { memory } supply (({} : Reader).run (Source.served source)) (Source.halt? source) :=
    readFrom_eq host {} { memory } supply source
  rw [hread]
  cases Source.halt? source with
  | none => exact conclude_whole host memory supply _
  | some fault => exact conclude_broken host memory supply fault _

/-- What the embedder remembers and the numbers left are those after one piece, whatever comes of the reading. -/
theorem builder_read (source : List Reply) :
    (read host memory supply source).memory = (buildWhole host memory supply (Source.served source)).1.memory ∧
      (read host memory supply source).supply = (buildWhole host memory supply (Source.served source)).2 := by
  rw [read_eq]
  cases Source.halt? source with
  | none => exact ⟨rfl, rfl⟩
  | some fault => exact ⟨rfl, rfl⟩

/-- A sheet that was read holds the styles that the builder made of the bytes. -/
theorem sheet_read {source : List Reply} {s : Sheet V} (h : (read host memory supply source).result = .ok s) :
    s = ofStyles (buildWhole host memory supply (Source.served source)).1.finished := by
  rw [read_eq] at h
  cases hhalt : Source.halt? source with
  | some fault =>
    rw [hhalt] at h
    cases h
  | none =>
    rw [hhalt] at h
    dsimp only [readWhole] at h
    split at h
    · exact (Except.ok.inj h).symm
    · cases h

/-- A reading is one run over all that the source serves, however it comes. -/
theorem read_of_chunks (source : List Reply) :
    let bs := Source.served source
    (read host memory supply source =
      match Source.halt? source with
      | none => readWhole host memory supply bs
      | some fault => readBroken host memory supply fault bs) ∧
    (read host.recording (memory, []) supply source).memory.2 =
      (buildWhole host.recording (memory, []) supply bs).1.memory.2 ∧
    read host memory supply (source.filter (· ≠ .interrupted)) = read host memory supply source ∧
    (∀ e, (({} : Reader).run bs).error? = some e ↔
      ∃ before b after, bs = before ++ b :: after ∧ (({} : Reader).run before).fault? = none ∧
        ((({} : Reader).run before).reader.step b).error? = some e) ∧
    ∀ (r : Reader) (chunks : List (List UInt8)),
      r.runAll chunks = r.run chunks.flatten ∧
        (r.runAll chunks).reader.line = r.line + UInt32.ofNat ((r.taken chunks.flatten).count lineEnd) := by
  refine ⟨read_eq host memory supply source, ?_, ?_, fun e => Reader.error_run_iff, fun r chunks => ?_⟩
  · rw [(builder_read host.recording (memory, []) supply source).1]
  · obtain ⟨hserved, hhalt⟩ := served_uninterrupted source
    rw [read_eq, read_eq, hserved, hhalt]
  · rw [Reader.runAll_eq]
    exact ⟨rfl, Reader.line_run r _⟩

end Sheet

end Cascade
