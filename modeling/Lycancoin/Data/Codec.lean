import Mathlib

namespace Lycancoin.Data

/-! Readers take values off the front of a stream of tokens.  A reader and a
writer agree in two ways: what is written is read back, and nothing is accepted
but what would be written.
-/

variable {ε τ α β : Type}

/-- A computation that takes a value off the front of a stream, or fails. -/
abbrev Reader (ε τ α : Type) := StateT (List τ) (Except ε) α

/-- The reader finds the value at the front of every stream that starts so. -/
def Reads (read : Reader ε τ α) (tokens : List τ) (value : α) : Prop :=
  ∀ rest, read.run (tokens ++ rest) = .ok (value, rest)

/-- The reader undoes the writer on the valid values, and it accepts nothing but
what is written for a valid value. -/
structure Inverse (read : Reader ε τ α) (write : α → List τ) (valid : α → Prop) : Prop where
  reads : ∀ value, valid value → Reads read (write value) value
  accepts : ∀ stream value rest, read.run stream = .ok (value, rest) →
    stream = write value ++ rest ∧ valid value

namespace Reader

def take (short : ε) (count : Nat) : Reader ε τ (List τ) := fun stream =>
  if count ≤ stream.length then .ok (stream.take count, stream.drop count) else .error short

/-- One value after the other. -/
def many (read : Reader ε τ α) : Nat → Reader ε τ (List α)
  | 0 => pure []
  | count + 1 => do
      let first ← read
      let others ← many read count
      pure (first :: others)

def chunked (part : Nat → Reader ε τ (List α)) (limit total : Nat) :
    Nat → Nat → Reader ε τ (List α)
  | 0, _ => pure []
  | rounds + 1, done =>
      if done < total then do
        let size := min limit (total - done)
        let first ← part size
        let others ← chunked part limit total rounds (done + size)
        pure (first ++ others)
      else pure []

def mapError {δ : Type} (rename : ε → δ) (read : Reader ε τ α) : Reader δ τ α := fun stream =>
  (read stream).mapError rename

variable {read : Reader ε τ α} {stream rest : List τ}

theorem run_mapError_eq_ok {δ : Type} {rename : ε → δ} {value : α} :
    (read.mapError rename).run stream = .ok (value, rest) ↔ read.run stream = .ok (value, rest) := by
  change (read stream).mapError rename = _ ↔ read stream = _
  cases read stream <;> simp [Except.mapError]

theorem run_bind_eq_ok {next : α → Reader ε τ β} {result : β} :
    (read >>= next).run stream = .ok (result, rest) ↔
      ∃ value middle, read.run stream = .ok (value, middle) ∧
        (next value).run middle = .ok (result, rest) := by
  rw [StateT.run_bind]
  cases read.run stream with
  | error failure => simp [bind, Except.bind]
  | ok step =>
      obtain ⟨value, middle⟩ := step
      simp [bind, Except.bind]

theorem run_pure_eq_ok {value result : α} :
    (pure value : Reader ε τ α).run stream = .ok (result, rest) ↔
      value = result ∧ stream = rest := by
  rw [StateT.run_pure]
  simp [pure, Except.pure]

theorem run_throw_ne_ok {failure : ε} {step : α × List τ} :
    (throw failure : Reader ε τ α).run stream ≠ .ok step := by
  intro returns
  cases returns

theorem run_take_eq_ok {short : ε} {count : Nat} {taken : List τ} :
    (take short count).run stream = .ok (taken, rest) ↔
      stream = taken ++ rest ∧ taken.length = count := by
  change (if count ≤ stream.length then Except.ok (stream.take count, stream.drop count)
    else Except.error short) = Except.ok (taken, rest) ↔ _
  constructor
  · intro returns
    split at returns
    · rename_i enough
      cases returns
      exact ⟨(List.take_append_drop count stream).symm, List.length_take_of_le enough⟩
    · cases returns
  · intro ⟨split, length⟩
    subst split length
    simp

theorem take_add {short : ε} (first second : Nat) :
    (take short (first + second) : Reader ε τ (List τ)) = (do
      let front ← take short first
      let back ← take short second
      pure (front ++ back)) := by
  funext stream
  change take short (first + second) stream = (take short first stream >>= fun step =>
    (take short second step.2 >>= fun next => Except.ok (step.1 ++ next.1, next.2)))
  by_cases enough : first ≤ stream.length
  · have front : take short first stream = .ok (stream.take first, stream.drop first) :=
      if_pos enough
    rw [front]
    by_cases more : second ≤ (stream.drop first).length
    · have back : take short second (stream.drop first) =
          .ok ((stream.drop first).take second, (stream.drop first).drop second) := if_pos more
      rw [List.length_drop] at more
      have all : take short (first + second) stream =
          .ok (stream.take (first + second), stream.drop (first + second)) :=
        if_pos (by omega)
      simp only [bind, Except.bind, back, all, List.take_add, List.drop_drop]
    · have back : take short second (stream.drop first) = .error short := if_neg more
      rw [List.length_drop] at more
      have all : take short (first + second) stream = .error short := if_neg (by omega)
      simp only [bind, Except.bind, back, all]
  · have front : take short first stream = .error short := if_neg enough
    have all : take short (first + second) stream = .error short := if_neg (by omega)
    rw [front, all]
    rfl

theorem take_zero {short : ε} : (take short 0 : Reader ε τ (List τ)) = pure [] := by
  funext stream
  simp [take, pure, StateT.pure, Except.pure]

theorem many_add (read : Reader ε τ α) (first second : Nat) :
    many read (first + second) = (do
      let front ← many read first
      let back ← many read second
      pure (front ++ back)) := by
  induction first with
  | zero => simp [many]
  | succ first ih =>
      rw [Nat.add_right_comm, many, many, ih]
      simp only [bind_assoc, pure_bind, List.cons_append]

theorem length_of_run_many {count : Nat} {values : List α}
    (returns : (many read count).run stream = .ok (values, rest)) : values.length = count := by
  induction count generalizing stream values with
  | zero =>
      obtain ⟨rfl, _⟩ := run_pure_eq_ok.mp returns
      rfl
  | succ count ih =>
      obtain ⟨first, middle, _, returns⟩ := run_bind_eq_ok.mp returns
      obtain ⟨others, last, more, returns⟩ := run_bind_eq_ok.mp returns
      obtain ⟨rfl, rfl⟩ := run_pure_eq_ok.mp returns
      rw [List.length_cons, ih more]

theorem chunked_eq {part : Nat → Reader ε τ (List α)} {limit total : Nat}
    (nothing : part 0 = pure [])
    (splits : ∀ first second, part (first + second) = (do
      let front ← part first
      let back ← part second
      pure (front ++ back)))
    (positive : 0 < limit) {rounds done : Nat} (enough : total - done ≤ rounds) :
    chunked part limit total rounds done = part (total - done) := by
  induction rounds generalizing done with
  | zero =>
      have finished : total - done = 0 := by omega
      rw [finished, nothing, chunked]
  | succ rounds ih =>
      rw [chunked]
      split
      · rename_i unfinished
        have split : total - done =
            min limit (total - done) + (total - (done + min limit (total - done))) := by
          omega
        have later := ih (by omega : total - (done + min limit (total - done)) ≤ rounds)
        conv_rhs => rw [split, splits, ← later]
      · rename_i finished
        have empty : total - done = 0 := by omega
        rw [empty, nothing]

end Reader

namespace Reads

variable {read : Reader ε τ α} {tokens more : List τ} {value : α}

theorem pure (value : α) : Reads (Pure.pure value : Reader ε τ α) [] value := fun _ => rfl

theorem bind {next : α → Reader ε τ β} {result : β} (first : Reads read tokens value)
    (second : Reads (next value) more result) : Reads (read >>= next) (tokens ++ more) result := by
  intro rest
  rw [List.append_assoc, Reader.run_bind_eq_ok]
  exact ⟨value, more ++ rest, first _, second rest⟩

/-- The last step of a reader, which takes nothing more. -/
theorem bind_pure {build : α → β} (reads : Reads read tokens value) :
    Reads (read >>= fun value => Pure.pure (build value)) tokens (build value) := by
  have joined : Reads (read >>= fun value => Pure.pure (build value)) (tokens ++ [])
      (build value) := reads.bind (Reads.pure (build value))
  rwa [List.append_nil] at joined

theorem take (short : ε) (tokens : List τ) :
    Reads (Reader.take short tokens.length) tokens tokens := fun _ =>
  Reader.run_take_eq_ok.mpr ⟨rfl, rfl⟩

theorem mapError {δ : Type} (rename : ε → δ) (reads : Reads read tokens value) :
    Reads (read.mapError rename) tokens value := fun rest =>
  Reader.run_mapError_eq_ok.mpr (reads rest)

theorem many {write : α → List τ} {values : List α}
    (each : ∀ value ∈ values, Reads read (write value) value) :
    Reads (Reader.many read values.length) (values.flatMap write) values := by
  induction values with
  | nil => exact Reads.pure []
  | cons value values ih =>
      have others := ih fun other member => each other (List.mem_cons_of_mem _ member)
      exact (each value List.mem_cons_self).bind others.bind_pure

end Reads

namespace Inverse

variable {read : Reader ε τ α} {write : α → List τ} {valid : α → Prop}

theorem many (each : Inverse read write valid) (count : Nat) :
    Inverse (Reader.many read count) (List.flatMap write)
      (fun values => values.length = count ∧ ∀ value ∈ values, valid value) where
  reads values := by
    intro ⟨length, allValid⟩
    rw [← length]
    exact Reads.many fun value member => each.reads value (allValid value member)
  accepts := by
    induction count with
    | zero =>
        intro stream values rest returns
        obtain ⟨rfl, rfl⟩ := Reader.run_pure_eq_ok.mp returns
        simp
    | succ count ih =>
        intro stream values rest returns
        obtain ⟨first, middle, one, returns⟩ := Reader.run_bind_eq_ok.mp returns
        obtain ⟨others, last, more, returns⟩ := Reader.run_bind_eq_ok.mp returns
        obtain ⟨rfl, rfl⟩ := Reader.run_pure_eq_ok.mp returns
        obtain ⟨split, isValid⟩ := each.accepts _ _ _ one
        obtain ⟨splits, length, allValid⟩ := ih _ _ _ more
        rw [split, splits, List.flatMap_cons, List.append_assoc, List.length_cons, length]
        exact ⟨rfl, rfl, List.forall_mem_cons.mpr ⟨isValid, allValid⟩⟩

theorem pure (value : α) :
    Inverse (Pure.pure value : Reader ε τ α) (fun _ => []) (fun result => result = value) where
  reads result same := by
    rw [same]
    exact Reads.pure value
  accepts stream result rest returns := by
    obtain ⟨rfl, rfl⟩ := Reader.run_pure_eq_ok.mp returns
    exact ⟨rfl, rfl⟩

theorem take (short : ε) (count : Nat) :
    Inverse (Reader.take short count : Reader ε τ (List τ)) id
      (fun tokens => tokens.length = count) where
  reads tokens length := by
    rw [← length]
    exact Reads.take short tokens
  accepts _ _ _ returns := Reader.run_take_eq_ok.mp returns

theorem congr {write' : α → List τ} {valid' : α → Prop} (inverse : Inverse read write valid)
    (writes : ∀ value, valid value → write' value = write value)
    (holds : ∀ value, valid' value ↔ valid value) : Inverse read write' valid' where
  reads value isValid := by
    rw [holds] at isValid
    rw [writes value isValid]
    exact inverse.reads value isValid
  accepts stream value rest returns := by
    obtain ⟨split, isValid⟩ := inverse.accepts stream value rest returns
    rw [writes value isValid, holds]
    exact ⟨split, isValid⟩

theorem check (inverse : Inverse read write valid) (refused : α → Prop) [DecidablePred refused]
    (failure : ε) :
    Inverse (read >>= fun value => if refused value then throw failure else Pure.pure value) write
      (fun value => valid value ∧ ¬refused value) where
  reads value := by
    intro ⟨isValid, allowed⟩ rest
    rw [Reader.run_bind_eq_ok]
    refine ⟨value, rest, inverse.reads value isValid rest, ?_⟩
    rw [if_neg allowed]
    rfl
  accepts stream value rest returns := by
    obtain ⟨word, middle, one, returns⟩ := Reader.run_bind_eq_ok.mp returns
    split at returns
    · exact absurd returns Reader.run_throw_ne_ok
    · rename_i allowed
      obtain ⟨rfl, rfl⟩ := Reader.run_pure_eq_ok.mp returns
      obtain ⟨split, isValid⟩ := inverse.accepts _ _ _ one
      exact ⟨split, isValid, allowed⟩

theorem map (inverse : Inverse read write valid) {build : α → β} (part : β → α) {whole : β → Prop}
    (undone : ∀ value, whole value → valid (part value) ∧ build (part value) = value)
    (built : ∀ value, valid value → whole (build value) ∧ part (build value) = value) :
    Inverse (read >>= fun value => Pure.pure (build value)) (fun value => write (part value)) whole where
  reads value isWhole := by
    obtain ⟨isValid, same⟩ := undone value isWhole
    have reads : Reads (read >>= fun value => Pure.pure (build value)) (write (part value))
        (build (part value)) := (inverse.reads (part value) isValid).bind_pure
    rwa [same] at reads
  accepts stream value rest returns := by
    obtain ⟨inner, middle, one, returns⟩ := Reader.run_bind_eq_ok.mp returns
    obtain ⟨rfl, rfl⟩ := Reader.run_pure_eq_ok.mp returns
    obtain ⟨split, isValid⟩ := inverse.accepts _ _ _ one
    obtain ⟨isWhole, same⟩ := built inner isValid
    rw [same]
    exact ⟨split, isWhole⟩

theorem bind (inverse : Inverse read write valid) {next : α → Reader ε τ β} (part : β → α)
    {others : β → List τ} {whole : β → Prop}
    (rest : ∀ first, valid first → Inverse (next first) others
      (fun value => part value = first ∧ whole value)) :
    Inverse (read >>= next) (fun value => write (part value) ++ others value)
      (fun value => valid (part value) ∧ whole value) where
  reads value := by
    intro ⟨isValid, isWhole⟩
    exact (inverse.reads _ isValid).bind ((rest _ isValid).reads value ⟨rfl, isWhole⟩)
  accepts stream value left returns := by
    obtain ⟨first, middle, one, returns⟩ := Reader.run_bind_eq_ok.mp returns
    obtain ⟨split, isValid⟩ := inverse.accepts _ _ _ one
    obtain ⟨splits, same, isWhole⟩ := (rest first isValid).accepts _ _ _ returns
    rw [split, splits, same, List.append_assoc]
    exact ⟨rfl, isValid, isWhole⟩

theorem encoding_unique (inverse : Inverse read write valid)
    {first second firstRest secondRest : List τ} {value : α}
    (left : read.run (first ++ firstRest) = .ok (value, firstRest))
    (right : read.run (second ++ secondRest) = .ok (value, secondRest)) : first = second := by
  have leftTokens := (inverse.accepts _ _ _ left).1
  have rightTokens := (inverse.accepts _ _ _ right).1
  rw [List.append_cancel_right leftTokens, List.append_cancel_right rightTokens]

end Inverse

end Lycancoin.Data
