import EglUtil.FileStreamReadingLaws
import EglUtil.FileStreamWriting
import EglUtil.Lib.Lines

/-!
# `FileStream`: what was written is read back

A file that streams have written and given back is opened for reading, behind what it held before
(nothing, unless it was opened to append).

**Theorem (`written_read_back`).** As long as the system reports no error and goes on answering,
the calls of the reader return what they return on the plain bytes that were passed to `write`,
whatever the two buffer sizes, the way these bytes were split over `write` calls, and the way the
system cuts them. Lines that were written with a newline each come back from `read_line`, and then
nothing, exactly if no line contains a newline or ends in a carriage return.
-/

namespace EglUtil

open Transition Lines

namespace FileStream

/-! ## Lines of a plain text -/

theorem plain_readLine {line : List UInt8} (hline : newline ∉ line) (rest : List UInt8) :
    ReadCall.plain (line ++ newline :: rest) .readLine = (foldLine line, rest) := by
  have hmem : newline ∈ line ++ newline :: rest :=
    List.mem_append_right _ List.mem_cons_self
  have hidx : (line ++ newline :: rest).idxOf newline = line.length := by
    rw [List.idxOf_append_of_notMem hline, List.idxOf_cons_self, Nat.add_zero]
  rw [ReadCall.plain, if_pos hmem, hidx, List.take_left', List.drop_append]
  · simp
  · rfl

theorem foldLine_eq_iff {text line : List UInt8} :
    foldLine text = .line line [newline] ↔ text = line ∧ line.getLast? ≠ some carriageReturn := by
  unfold foldLine
  split_ifs with hcr
  · refine iff_of_false (fun h => ?_) ?_
    · cases h
    · rintro ⟨rfl, hne⟩
      exact hne hcr
  · constructor
    · intro h
      cases h
      exact ⟨rfl, hcr⟩
    · rintro ⟨rfl, -⟩
      rfl

/-- **Reading lines.** -/
theorem plainReplies_ended_iff (lines : List (List UInt8)) :
    plainReplies (ended newline lines) (List.replicate (lines.length + 1) .readLine) =
        lines.map (fun line => .line line [newline]) ++ [.nullopt] ↔
      ∀ line ∈ lines, newline ∉ line ∧ line.getLast? ≠ some carriageReturn := by
  induction lines with
  | nil => exact iff_of_true rfl fun _ h => (List.not_mem_nil h).elim
  | cons line lines ih =>
    rw [List.length_cons, List.replicate_succ, plainReplies, ended_cons, List.forall_mem_cons,
      List.map_cons, List.cons_append]
    by_cases hline : newline ∈ line
    · refine iff_of_false (fun h => ?_) fun h => h.1.1 hline
      have hmem : newline ∈ line ++ newline :: ended newline lines :=
        List.mem_append_left _ hline
      have hfirst := (List.cons.inj h).1
      rw [ReadCall.plain, if_pos hmem, foldLine_eq_iff] at hfirst
      rw [← hfirst.1, List.mem_take_iff_idxOf_lt hmem] at hline
      exact Nat.lt_irrefl _ hline
    · rw [plain_readLine hline, List.cons.injEq, foldLine_eq_iff, ih]
      simp only [hline, true_and, not_false_eq_true]

/-! ## From the writer to the reader -/

/-- Given enough answers, a reader returns what it returns on the plain bytes. -/
theorem exists_fileReplies {os : Nat → Chunk} (hfair : ∀ k, ∃ j, k ≤ j ∧ os j ≠ .interrupted)
    (content : List UInt8) (handle bufferSize : Nat) (cs : List ReadCall) :
    ∃ N, ∀ n, N ≤ n →
      fileReplies os content handle bufferSize n cs = plainReplies content cs := by
  obtain ⟨N, hN⟩ := exists_chunkBudget_ge hfair (cs.length + content.length)
  refine ⟨N, fun n hn => ?_⟩
  have hsize : (opened (.ok handle) .read bufferSize).buffer.length = max bufferSize 1 :=
    List.length_replicate
  have hstands : Stands cs.length content (opened (.ok handle) .read bufferSize)
      (serve (max bufferSize 1) content (firstChunks os n)) := by
    rw [← hsize]
    exact stands_of_serve (readable_opened handle bufferSize) rfl (by omega) rfl
      (.inr (hN n hn))
  exact (Stands.replies hstands cs).2 (Nat.le_refl _)

/-- Given enough answers, a run of writers comes to its end with nothing lost. -/
theorem exists_run {ι : Type*} [DecidableEq ι] {os : Nat → Response}
    (hok : ∀ k err, os k ≠ .failed err) (hfair : ∀ k, ∃ j, k ≤ j ∧ os j ≠ .interrupted)
    (ops : List (Op ι)) :
    ∃ N, ∀ n, N ≤ n → ∃ w, run World.step (World.initial ι (answers os n)) ops = some w ∧
      Transparent w := by
  obtain ⟨N, hN⟩ := exists_budget_ge hfair (ops.length * (ops.map Op.bytes).sum)
  refine ⟨N, fun n hn => ?_⟩
  have hready : Ready (ops.map Op.bytes).sum (World.initial ι (answers os n)) ops := by
    refine ⟨inv_initial rfl _, rfl, fun err hmem => ?_, hN n hn, fun h => ?_⟩
    · obtain ⟨k, -, hk⟩ := List.mem_map.1 hmem
      exact hok k err hk
    · simp [World.initial]
  rcases List.eq_nil_or_concat' ops with rfl | ⟨init, op, rfl⟩
  · exact ⟨_, rfl, hready.inv.transparent⟩
  · obtain ⟨w, hrun, hlast⟩ := hready.run
    refine ⟨(w.perform op).2, ?_, hlast.perform.inv.transparent⟩
    rw [run_append, hrun, Option.bind_some, run_cons, World.step, hlast.running]
    rfl

/-- **Round trip.** Writers `ops`, and then a reader of a descriptor that was given back. -/
theorem written_read_back {ι : Type*} [DecidableEq ι] {os : Nat → Response} {ros : Nat → Chunk}
    (hok : ∀ k err, os k ≠ .failed err) (hfair : ∀ k, ∃ j, k ≤ j ∧ os j ≠ .interrupted)
    (hrfair : ∀ k, ∃ j, k ≤ j ∧ ros j ≠ .interrupted) (ops : List (Op ι)) :
    ∃ N, ∀ n, N ≤ n → ∃ w, run World.step (World.initial ι (answers os n)) ops = some w ∧
      ∀ h, w.isOpen h = false → ∀ existing handle bufferSize,
        (∀ cs, ∃ M, ∀ m, M ≤ m →
          fileReplies ros (existing ++ w.sent h) handle bufferSize m cs =
            plainReplies (existing ++ w.written h) cs) ∧
        ∀ lines, existing ++ w.written h = ended newline lines →
          ((∃ M, ∀ m, M ≤ m →
            fileReplies ros (existing ++ w.sent h) handle bufferSize m
                (List.replicate (lines.length + 1) .readLine) =
              lines.map (fun line => .line line [newline]) ++ [.nullopt]) ↔
            ∀ line ∈ lines, newline ∉ line ∧ line.getLast? ≠ some carriageReturn) := by
  obtain ⟨N, hN⟩ := exists_run hok hfair ops
  refine ⟨N, fun n hn => ?_⟩
  obtain ⟨w, hrun, htransparent⟩ := hN n hn
  refine ⟨w, hrun, fun h hshut existing handle bufferSize => ?_⟩
  rw [htransparent.shut h hshut]
  have hreads := exists_fileReplies hrfair (existing ++ w.written h) handle bufferSize
  refine ⟨hreads, fun lines hlines => ?_⟩
  rw [← plainReplies_ended_iff, ← hlines]
  obtain ⟨M, hM⟩ := hreads (List.replicate (lines.length + 1) .readLine)
  constructor
  · rintro ⟨M', hM'⟩
    rw [← hM (max M M') (Nat.le_max_left _ _)]
    exact hM' _ (Nat.le_max_right _ _)
  · intro hplain
    exact ⟨M, fun m hm => (hM m hm).trans hplain⟩

/-- Two lines, through a buffer of two bytes to a system that takes one byte at a time, and back
through a buffer of three. -/
theorem written_read_back_lines : ∃ n w,
    run World.step (World.initial Unit (answers (fun _ => .accepted 1) n))
      [.open () (.ok 3) .write 2, .write () [97, 10, 98], .flush (), .write () [98, 10],
        .close () .closed] = some w ∧
    ∃ M, ∀ m, M ≤ m → fileReplies slowFile (w.sent 3) 4 3 m [.readLine, .readLine, .readLine] =
      [.line [97] [10], .line [98, 98] [10], .nullopt] := by
  have hrfair : ∀ k, ∃ j, k ≤ j ∧ slowFile j ≠ .interrupted := fun k =>
    ⟨2 * k + 1, by omega, by simp [slowFile, Nat.add_mod]⟩
  have hfair : ∀ k, ∃ j, k ≤ j ∧ (fun _ => .accepted 1 : Nat → Response) j ≠ .interrupted :=
    fun k => ⟨k, Nat.le_refl k, by simp⟩
  obtain ⟨N, hN⟩ := written_read_back (ι := Unit) (fun _ _ => by simp) hfair hrfair
    [.open () (.ok 3) .write 2, .write () [97, 10, 98], .flush (), .write () [98, 10],
      .close () .closed]
  obtain ⟨w, hrun, hback⟩ := hN (N + 9) (Nat.le_add_right N 9)
  refine ⟨N + 9, w, hrun, ?_⟩
  have hscript : answers (fun _ => .accepted 1) (N + 9) = List.replicate (N + 9) (.accepted 1) := by
    rw [answers, List.map_const', List.length_range]
  rw [hscript] at hrun
  have hend : w.isOpen 3 = false ∧ w.written 3 = [97, 10, 98, 98, 10] := by
    cases hrun
    exact ⟨rfl, rfl⟩
  obtain ⟨hshut, hwritten⟩ := hend
  obtain ⟨-, hlines⟩ := hback 3 hshut [] 4 3
  exact (hlines [[97], [98, 98]] (by rw [hwritten]; rfl)).2 (by decide)

end FileStream

end EglUtil
