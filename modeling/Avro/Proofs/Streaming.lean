import Avro.Proofs.FileSession

/-!
Contract: a writer only appends to its stream.

Owns: `Streams`, the steps of a session that neither change nor look at what its stream holds, that
all operations on a writer are such steps, also where they fail, and that a file is therefore
continued by the same bytes behind every content.
-/

namespace Avro.Container

variable {α β : Type} {libraries : Codec.Libraries}

/-- A session whose stream goes on behind further content. -/
def Session.behind (content : Bytes) (session : Session) : Session :=
  { session with stream := Stream.atEnd (content ++ session.stream.content) }

/-- The session that a step leaves, whether it fails or not. -/
def finalSession : EStateM.Result Error Session α → Session
  | .ok _ after => after
  | .error _ after => after

def resultBehind (content : Bytes) : EStateM.Result Error Session α → EStateM.Result Error Session α
  | .ok value after => .ok value (after.behind content)
  | .error error after => .error error (after.behind content)

/-- A step that does the same behind every content. -/
def Streams (step : SessionM α) : Prop :=
  ∀ writer content, step ⟨writer, Stream.atEnd content⟩ =
    resultBehind content (step ⟨writer, Stream.atEnd []⟩)

theorem Session.behind_behind (front back : Bytes) (session : Session) :
    (session.behind back).behind front = session.behind (front ++ back) := by
  simp [behind, Stream.atEnd]

private theorem resultBehind_resultBehind (front back : Bytes)
    (result : EStateM.Result Error Session α) :
    resultBehind front (resultBehind back result) = resultBehind (front ++ back) result := by
  cases result with
  | ok value after => rw [resultBehind, resultBehind, resultBehind, Session.behind_behind]
  | error error after => rw [resultBehind, resultBehind, resultBehind, Session.behind_behind]

namespace Streams

variable {after : Session} {value : α} {writer : Writer} {step : SessionM α}

theorem pure (value : α) : Streams (Pure.pure value) := by
  intro writer content
  change EStateM.Result.ok value _ = .ok value (Session.behind content _)
  simp [Session.behind, Stream.atEnd]

theorem throw (error : Error) : Streams (MonadExcept.throw error : SessionM α) := by
  intro writer content
  change EStateM.Result.error error _ = .error error (Session.behind content _)
  simp [Session.behind, Stream.atEnd]

private theorem stream_ok (streams : Streams step)
    (done : step ⟨writer, Stream.atEnd []⟩ = .ok value after) :
    after = ⟨after.writer, Stream.atEnd after.stream.content⟩ := by
  have moved := streams writer []
  rw [done, resultBehind, EStateM.Result.ok.injEq] at moved
  exact moved.2

/-- Steps that go alike behind any content, one after the other, go alike. -/
theorem bind {next : α → SessionM β} (streams : Streams step)
    (nextStreams : ∀ value, Streams (next value)) : Streams (step >>= next) := by
  intro writer content
  cases started : step ⟨writer, Stream.atEnd []⟩ with
  | error error after =>
    have moved := streams writer content
    rw [started] at moved
    rw [step_bind_of_error started, step_bind_of_error moved]
    rfl
  | ok value between =>
    have moved := streams writer content
    rw [started] at moved
    rw [step_bind_of_ok started, step_bind_of_ok moved, streams.stream_ok started]
    rw [nextStreams value between.writer between.stream.content, resultBehind_resultBehind]
    exact nextStreams value between.writer (content ++ between.stream.content)

theorem get {next : Session → SessionM α}
    (writerOnly : ∀ session other, session.writer = other.writer → next session = next other)
    (streams : ∀ session, Streams (next session)) : Streams (MonadState.get >>= next) := by
  intro writer content
  change next ⟨writer, Stream.atEnd content⟩ _ =
    resultBehind content (next ⟨writer, Stream.atEnd []⟩ _)
  rw [writerOnly ⟨writer, Stream.atEnd content⟩ ⟨writer, Stream.atEnd []⟩ rfl]
  exact streams _ writer content

theorem modifyWriter (change : Writer → Writer) :
    Streams (modify fun session => { session with writer := change session.writer } :
      SessionM PUnit) := by
  intro writer content
  change EStateM.Result.ok PUnit.unit _ = .ok PUnit.unit (Session.behind content _)
  simp [Session.behind, Stream.atEnd]

theorem put (bytes : Bytes) : Streams (SessionM.put bytes) := by
  intro writer content
  change EStateM.Result.ok () (Session.mk writer ((Stream.atEnd content).put bytes)) =
    .ok () (Session.behind content ⟨writer, (Stream.atEnd []).put bytes⟩)
  rw [put_atEnd, put_atEnd]
  rfl

theorem putBlock (count : Int) (data : Bytes) : Streams (SessionM.putBlock count data) := by
  refine (put _).bind fun _ => get (fun session other same => by simp only [same]) fun session => ?_
  dsimp only
  split
  · exact throw _
  · split
    · exact (throw _).bind fun _ => (put _).bind fun _ => put _
    · exact (put _).bind fun _ => put _

theorem dump : Streams SessionM.dump := by
  refine get (fun session other same => by simp only [same]) fun session =>
    (putBlock _ _).bind fun _ => ?_
  exact modifyWriter fun writer => { writer with count := 0, pending := .empty }

theorem flush : Streams SessionM.flush := by
  refine get (fun session other same => by simp only [same]) fun session => ?_
  dsimp only
  split
  · exact dump
  · exact pure _

theorem encodeRecord (record : Datum) : Streams (SessionM.encodeRecord record) := by
  intro writer content
  unfold SessionM.encodeRecord
  dsimp only
  cases Encode.write writer.registry Schema.depthLimit record writer.schema (.str "")
    writer.pending with
  | ok value pending => simp [resultBehind, Session.behind, Stream.atEnd]
  | error error pending => simp [resultBehind, Session.behind, Stream.atEnd]

theorem write (record : Datum) : Streams (SessionM.write record) := by
  refine get (fun session other same => by simp only [same]) fun session => ?_
  dsimp only
  split
  · exact throw _
  · refine (encodeRecord record).bind fun _ => ?_
    refine (modifyWriter fun writer => { writer with count := writer.count + 1 }).bind fun _ => ?_
    refine get (fun session other same => by simp only [same]) fun session => ?_
    split
    · exact dump
    · exact pure _

theorem writeRecords (records : List Datum) : Streams (SessionM.writeRecords records) := by
  induction records with
  | nil => exact pure ()
  | cons record rest ih => exact (write record).bind fun _ => ih

theorem writeAll (records : Datum) : Streams (SessionM.writeAll records) := by
  unfold SessionM.writeAll
  split
  · exact writeRecords _
  · exact throw _

/-- A step succeeds behind a content just if it does without it, and adds the same bytes. -/
theorem ok_behind (streams : Streams step) {content : Bytes} :
    step ⟨writer, Stream.atEnd content⟩ = .ok value after ↔
      ∃ alone, step ⟨writer, Stream.atEnd []⟩ = .ok value alone ∧ after = alone.behind content := by
  rw [streams writer content]
  cases step ⟨writer, Stream.atEnd []⟩ with
  | ok result alone =>
    rw [resultBehind]
    constructor
    · rintro ⟨rfl, rfl⟩
      exact ⟨alone, rfl, rfl⟩
    · rintro ⟨_, ⟨rfl, rfl⟩, rfl⟩
      rfl
  | error error alone =>
    rw [resultBehind]
    constructor
    · rintro ⟨⟩
    · rintro ⟨_, ⟨⟩, _⟩

/-- What the stream held before a step stays at its front. -/
theorem keeps_content (streams : Streams step) (writer : Writer) (content : Bytes) :
    content <+: (finalSession (step ⟨writer, Stream.atEnd content⟩)).stream.content := by
  rw [streams writer content]
  cases step ⟨writer, Stream.atEnd []⟩ with
  | ok value after => exact List.prefix_append content after.stream.content
  | error error after => exact List.prefix_append content after.stream.content

end Streams

/-! ### Whole files -/

/-- The steps that write a file once it is opened. -/
def writeContent (records : Datum) : SessionM Unit := do
  SessionM.writeAll records
  SessionM.flush

/-- Records and the last block are written alike behind any content. -/
theorem streams_writeContent (records : Datum) : Streams (writeContent records) :=
  (Streams.writeAll records).bind fun _ => Streams.flush

/-- A file is written by opening a writer on the stream and passing it all records. -/
theorem writeFile_ok {options : WriterOptions} {schema : Json} {records : Datum}
    {stream final : Stream} :
    writeFile libraries options schema records stream = .ok final ↔
      (∀ entries, records ≠ .dict entries) ∧
      ∃ writer opened session, Writer.openOn libraries options schema stream = .ok writer opened ∧
        writeContent records ⟨writer, opened⟩ = .ok () session ∧ final = session.stream := by
  have isDict (entries : List (Datum × Datum)) :
    writeFile libraries options schema (.dict entries) stream = .error .recordsAreMapping := rfl
  constructor
  · intro completes
    refine ⟨fun entries isMapping => ?_, ?_⟩
    · rw [isMapping, isDict] at completes
      cases completes
    · unfold writeFile at completes
      split at completes
      · cases completes
      · cases opens : Writer.openOn libraries options schema stream with
        | error error after =>
          rw [opens] at completes
          cases completes
        | ok writer opened =>
          rw [opens] at completes
          dsimp only at completes
          rw [← writeContent] at completes
          cases done : writeContent records ⟨writer, opened⟩ with
          | error error after =>
            rw [done] at completes
            cases completes
          | ok value session =>
            rw [done] at completes
            cases completes
            exact ⟨writer, opened, session, rfl, done, rfl⟩
  · rintro ⟨notMapping, writer, opened, session, opens, done, rfl⟩
    unfold writeFile
    split
    · exact absurd rfl (notMapping _)
    · rw [opens]
      dsimp only
      rw [← writeContent, done]

end Avro.Container
