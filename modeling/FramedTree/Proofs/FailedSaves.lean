import FramedTree.Proofs.LaterSaves
import FramedTree.Proofs.Tiling

/-! # Saves that fail

Whatever makes a save fail, its target keeps what it held, and what follows is the beginning of what
is written without faults: whole frames, and part of the next one if writing it was what failed. The
document stays what it was, so that it can be saved again.
-/

namespace FramedTree

private theorem Due.Stops.part_eq_nil {target : StreamId} {error : Error} {streams : Streams}
    {bytes part : Bytes} {due : Due} (h : due.Stops target error streams bytes part)
    (hdue : ∀ kind frame, due ≠ .frame kind (.ok frame)) : part = [] := by
  cases h with
  | seek | node | refused => rfl
  | torn | unflushed => exact absurd rfl (hdue _ _)

private theorem Document.Underway.seek_eq {codec : Codec} {document : Document}
    {blocks : List Block} {started : List Placed}
    (h : document.Underway codec blocks started .seek) : blocks = [] ∧ started = [] := by
  generalize hdue : Due.seek = due at h
  cases h with
  | seek => exact ⟨rfl, rfl⟩
  | root => cases hdue
  | entry hcell hunderway =>
    subst hdue
    cases hunderway with
    | within _ hentry => cases hentry

namespace Document

variable {codec : Codec} {target : StreamId} {position : Nat} {error : Error}
  {document later : Document} {before after : Streams}

/-- A save has broken off. Behind what the target held, whole frames fill `body`, children first,
and `part` of what was due follows. -/
structure BrokeOff (codec : Codec) (target : StreamId) (error : Error) (held body part : Bytes)
    (document : Document) (streams : Streams) : Prop where
  bytes_eq : (streams.get target).bytes = held ++ body ++ part
  frames : ∃ blocks started due,
    document.HasBlocks blocks ∧ document.Underway codec blocks started due ∧
    Tiles codec held.length (Block.allFrames blocks ++ started) body ∧
    due.Stops target error streams (held ++ body) part ∧
    ((∀ kind frame, due ≠ .frame kind (.ok frame)) → part = []) ∧
    (due = .seek → body = [] ∧ part = [])

private theorem brokeOff (hgaps : ∀ i < document.entryCount, (document.entries.get? i).isSome)
    (h : save codec target position (document, before) = .error error (later, after)) :
    ∃ body part, later.BrokeOff codec target error (before.get target).bytes body part after := by
  obtain ⟨blocks, started, due, body, part, hblocks, hunderway, hbytes, htiles, hstops⟩ :=
    save_failed hgaps h
  refine ⟨body, part, hbytes, blocks, started, due, hblocks, hunderway, htiles, hstops,
    hstops.part_eq_nil, ?_⟩
  intro hseek
  subst hseek
  obtain ⟨rfl, rfl⟩ := hunderway.seek_eq
  exact ⟨htiles, hstops.part_eq_nil nofun⟩

/-- The document has come through a save to the target: what was loaded stays loaded, its nodes have
the values they had, and whoever saves it without faults gets what it would have given before. A
node that is still to be loaded from the target itself may have been cut off before, and completed
since. -/
structure Unharmed (target : StreamId) (document later : Document) (before after : Streams) :
    Prop where
  grows : before.GrowsAt target after
  fills : document.Fills later
  same : Document.Same after document later
  anywhere : ∀ codec other position streams, after.Over streams →
    SavedAlike other (save codec other position (document, streams))
      (save codec other position (later, streams))
  elsewhere : ∀ codec other position, other ≠ target →
    SavedAlike other (save codec other position (document, before.still))
      (save codec other position (later, after.still)) ∨
    ∃ error, verdict (save codec other position (document, before.still)) = .error error ∧
      ¬ (document.ReadsOnly fun source => source.backing ≠ .stream target) ∧ error.isCutOff

private theorem unharmed
    (h : save codec target position (document, before) = .error error (later, after)) :
    document.Unharmed target later before after := by
  have hfills := fills_save codec target position (document, before)
  have hsame := @same_save target codec position document before
  rw [h] at hfills hsame
  refine ⟨hsame.1, hfills, hsame.2, fun _ _ _ streams hover => hsame.2.saves hover,
    fun other_codec other start hne => ?_⟩
  have hagain := @save_after_save other target other_codec start document before hne codec position
  rwa [h] at hagain

end Document

namespace Workspace

/-- Whatever a document went through, and whatever the streams hold and do: if saving the document
fails, the target has kept what it held, behind which stands the beginning of what is written
without faults, and the document is unharmed. -/
theorem save_fails_cleanly {ops : List Op} {name : String} {codec : Codec} {target : StreamId}
    {position : Nat} {error : Error} {after : Workspace}
    (h : onDocument name (Document.save codec target position) (run ops {}).2 =
      .error error after) :
    let before := (run ops {}).2.streams
    let held := (before.get target).bytes
    ∃ document later body part,
      (run ops {}).2.documents.find? name = some document ∧
      after.documents.find? name = some later ∧
      later.BrokeOff codec target error held body part after.streams ∧
      held ++ body ++ part <+:
        ((stateAfter (Document.save codec target position (document, before.still))).2.get
          target).bytes ∧
      document.Unharmed target later before after.streams := by
  obtain ⟨document, later, streams, hfound, hrun, rfl⟩ := onDocument_failed h
  have hintact : document.Intact := (sound_run ops sound_empty).document hfound
  obtain ⟨body, part, hbroke⟩ := Document.brokeOff hintact.occupied hrun
  have hprefix := Document.save_curtailed hrun
  rw [hbroke.bytes_eq] at hprefix
  have hlater : ((run ops {}).2.documents.set name later).find? name = some later := by
    rw [Table.find?_set_self]
  exact ⟨document, later, body, part, hfound, hlater, hbroke, hprefix, Document.unharmed hrun⟩

/-- An entry that is to be saved to a stream that takes no more than four bytes, two at a time. -/
def fullStream : List Op :=
  [.setStream "s" [9]
    { write := some { effect := .fail ⟨.brokenPipe, "full"⟩, start := 4 }, chunk := some 2 },
    .newDocument "d", .addEntry "d"]

/-- The frame of the identification has been written, and part of the frame of the entry. -/
theorem save_fails_within_a_frame :
    ∃ after document later body part,
      onDocument "d" (Document.save {} (.named "s" 1)) (run fullStream {}).2 =
        .error (.io ⟨.brokenPipe, "full"⟩) after ∧
      (after.streams.get (.named "s" 1)).bytes = [9, 0, 2, 8] ∧
      Document.BrokeOff {} (.named "s" 1) (.io ⟨.brokenPipe, "full"⟩)
        [9] body part later after.streams ∧
      Document.Unharmed (.named "s" 1) document later
        (run fullStream {}).2.streams after.streams := by
  have hsave :=
    eq_error_of_verdict (onDocument "d" (Document.save {} (.named "s" 1)) (run fullStream {}).2)
    (.io ⟨.brokenPipe, "full"⟩) (by decide +kernel)
  obtain ⟨document, later, body, part, -, -, hbroke, -, hunharmed⟩ := save_fails_cleanly hsave
  have hheld : ((run fullStream {}).2.streams.get (.named "s" 1)).bytes = [9] := by decide +kernel
  rw [hheld] at hbroke
  exact ⟨_, document, later, body, part, hsave, by decide +kernel, hbroke, hunharmed⟩

/-- A document whose second entry is stored behind the end of its stream, which takes four bytes
more. -/
def completedEntry : List Op :=
  [.setStream "s" [0, 0, 4, 10, 2, 1, 11, 4, 0, 0, 0]
    { write := some { effect := .fail ⟨.brokenPipe, "full"⟩, start := 15 } },
    .openDocument "d" "s" {}]

def passingFault : List Op :=
  [.setStream "s" [0, 0, 3, 10, 1, 1, 3, 0, 0, 0] {}, .openDocument "d" "s" {},
    .setFaults "s" { read := some { effect := .fail ⟨.brokenPipe, "gone"⟩, times := some 1 } }]

/-- A failed save may complete an entry that was cut off in its target, and may take the place of
the save that would have met the fault of a source. A later save to a stream without faults then
writes what it would not have written. -/
theorem save_after_failure_differs :
    (run (completedEntry ++ [.save "d" "t" {}, .dump "t"]) {}).1.drop 2 =
      [.failed (.malformed .truncatedVarint), .bytes [0, 0]] ∧
    (run (completedEntry ++ [.save "d" "s" {}, .save "d" "t" {}, .dump "t"]) {}).1.drop 2 =
      [.failed (.io ⟨.brokenPipe, "full"⟩), .size 15,
        .bytes [0, 0, 0, 2, 8, 2, 4, 10, 2, 1, 3, 4, 0, 0, 0]] ∧
    (run (passingFault ++ [.save "d" "t" {}, .dump "t"]) {}).1.drop 3 =
      [.failed (.io ⟨.brokenPipe, "gone"⟩), .bytes []] ∧
    (run (passingFault ++ [.save "d" "u" {}, .save "d" "t" {}, .dump "t"]) {}).1.drop 3 =
      [.failed (.io ⟨.brokenPipe, "gone"⟩), .size 10, .bytes [0, 0, 3, 10, 1, 1, 3, 0, 0, 0]] := by
  refine ⟨?_, ?_, ?_, ?_⟩ <;> decide +kernel

end Workspace
end FramedTree
