import Mathlib

namespace Lycancoin.Data

/-! A stream that is cut into frames while it comes in. -/

/-- The header of a frame tells how many tokens follow it, unless it is refused. -/
structure Framing (τ : Type) where
  headerSize : Nat
  payloadSize : List τ → Option Nat

/-- The whole frames, and the tokens behind them. -/
structure Unframed (τ : Type) where
  frames : List (List τ)
  tokens : List τ

namespace Framing

variable {τ : Type} {framing : Framing τ} {state after : Unframed τ} {chunk header frame : List τ}
  {size : Nat}

def absorb (framing : Framing τ) (state : Unframed τ) (token : τ) :
    Except (Unframed τ) (Unframed τ) :=
  let tokens := state.tokens ++ [token]
  if tokens.length < framing.headerSize then .ok { state with tokens }
  else
    match framing.payloadSize (tokens.take framing.headerSize) with
    | none => .error { state with tokens }
    | some size =>
        if tokens.length = framing.headerSize + size then .ok ⟨state.frames ++ [tokens], []⟩
        else .ok { state with tokens }

def feed (framing : Framing τ) (state : Unframed τ) (chunk : List τ) :
    Except (Unframed τ) (Unframed τ) :=
  chunk.foldlM framing.absorb state

/-- A frame that is not refused and as long as its header tells. -/
def Framed (framing : Framing τ) (frame : List τ) : Prop :=
  ∃ size, framing.payloadSize (frame.take framing.headerSize) = some size ∧
    frame.length = framing.headerSize + size

@[simp] theorem feed_nil : framing.feed state [] = .ok state := rfl

theorem feed_append (state : Unframed τ) (front back : List τ) :
    framing.feed state (front ++ back) =
      framing.feed state front >>= fun middle => framing.feed middle back :=
  List.foldlM_append

theorem feed_concat (state : Unframed τ) (front : List τ) (token : τ) :
    framing.feed state (front ++ [token]) =
      framing.feed state front >>= fun middle => framing.absorb middle token := by
  rw [feed_append]
  congr 1
  funext middle
  simp [feed]

theorem feed_short (short : state.tokens.length + chunk.length < framing.headerSize) :
    framing.feed state chunk = .ok { state with tokens := state.tokens ++ chunk } := by
  induction chunk using List.reverseRecOn with
  | nil => rw [List.append_nil, feed_nil]
  | append_singleton chunk token ih =>
      rw [List.length_append, List.length_singleton] at short
      have length : (state.tokens ++ chunk ++ [token]).length < framing.headerSize := by
        rw [List.length_append, List.length_append, List.length_singleton]
        omega
      rw [feed_concat, ih (by omega)]
      change framing.absorb { state with tokens := state.tokens ++ chunk } token = _
      rw [absorb, if_pos length, List.append_assoc]

theorem feed_header (inside : state.tokens.length < framing.headerSize)
    (ends : state.tokens.length + chunk.length = framing.headerSize) :
    framing.feed state chunk =
      match framing.payloadSize (state.tokens ++ chunk) with
      | none => .error { state with tokens := state.tokens ++ chunk }
      | some 0 => .ok ⟨state.frames ++ [state.tokens ++ chunk], []⟩
      | some (_ + 1) => .ok { state with tokens := state.tokens ++ chunk } := by
  cases chunk using List.reverseRecOn with
  | nil => simp at ends; omega
  | append_singleton chunk token =>
      rw [List.length_append, List.length_singleton] at ends
      have length : (state.tokens ++ chunk ++ [token]).length = framing.headerSize := by
        rw [List.length_append, List.length_append, List.length_singleton]
        omega
      rw [feed_concat, feed_short (by omega)]
      change framing.absorb { state with tokens := state.tokens ++ chunk } token = _
      rw [absorb, if_neg (by rw [length]; exact lt_irrefl _), ← List.append_assoc,
        List.take_of_length_le length.le]
      cases framing.payloadSize (state.tokens ++ chunk ++ [token]) with
      | none => rfl
      | some size =>
          cases size with
          | zero => simp only [length, Nat.add_zero, if_true]
          | succ size =>
              simp only [length]
              rw [if_neg (by omega)]

theorem feed_within (known : framing.payloadSize header = some size)
    (isHeader : header.length = framing.headerSize) (starts : header <+: state.tokens)
    (within : state.tokens.length + chunk.length < framing.headerSize + size) :
    framing.feed state chunk = .ok { state with tokens := state.tokens ++ chunk } := by
  induction chunk using List.reverseRecOn with
  | nil => rw [List.append_nil, feed_nil]
  | append_singleton chunk token ih =>
      obtain ⟨payload, split⟩ := starts
      rw [List.length_append, List.length_singleton] at within
      have length : (state.tokens ++ chunk ++ [token]).length =
          state.tokens.length + chunk.length + 1 := by
        rw [List.length_append, List.length_append, List.length_singleton]
      have longer : framing.headerSize ≤ state.tokens.length := by
        rw [← isHeader, ← split, List.length_append]
        omega
      have front : (state.tokens ++ chunk ++ [token]).take framing.headerSize = header := by
        rw [← split, List.append_assoc, List.append_assoc, ← isHeader, List.take_left]
      rw [feed_concat, ih (by omega)]
      change framing.absorb { state with tokens := state.tokens ++ chunk } token = _
      simp only [absorb, front, known]
      rw [if_neg (by omega), if_neg (by omega), List.append_assoc]

theorem feed_payload (known : framing.payloadSize header = some size)
    (isHeader : header.length = framing.headerSize) (starts : header <+: state.tokens)
    (some : chunk ≠ []) (ends : state.tokens.length + chunk.length = framing.headerSize + size) :
    framing.feed state chunk = .ok ⟨state.frames ++ [state.tokens ++ chunk], []⟩ := by
  cases chunk using List.reverseRecOn with
  | nil => contradiction
  | append_singleton chunk token =>
      rw [List.length_append, List.length_singleton] at ends
      rw [feed_concat, feed_within known isHeader starts (by omega)]
      obtain ⟨payload, split⟩ := starts
      have length : (state.tokens ++ chunk ++ [token]).length = framing.headerSize + size := by
        rw [List.length_append, List.length_append, List.length_singleton]
        omega
      have front : (state.tokens ++ chunk ++ [token]).take framing.headerSize = header := by
        rw [← split, List.append_assoc, List.append_assoc, ← isHeader, List.take_left]
      change framing.absorb { state with tokens := state.tokens ++ chunk } token = _
      simp only [absorb, front, known]
      rw [if_neg (by omega), if_pos length, List.append_assoc]

theorem feed_frame (positive : 0 < framing.headerSize) (framed : framing.Framed frame)
    (frames : List (List τ)) :
    framing.feed ⟨frames, []⟩ frame = .ok ⟨frames ++ [frame], []⟩ := by
  obtain ⟨size, known, length⟩ := framed
  have isHeader : (frame.take framing.headerSize).length = framing.headerSize :=
    List.length_take_of_le (by omega)
  have split := List.take_append_drop framing.headerSize frame
  have inside : (Unframed.mk frames ([] : List τ)).tokens.length < framing.headerSize := positive
  have front := feed_header inside ((Nat.zero_add _).trans isHeader)
  rw [List.nil_append, known] at front
  rw [← congrArg (framing.feed ⟨frames, []⟩) split, feed_append, front]
  cases size with
  | zero =>
      have nothing : frame.drop framing.headerSize = [] := by
        rw [List.drop_eq_nil_iff]
        omega
      rw [nothing, List.append_nil] at split
      rw [nothing, split]
      rfl
  | succ size =>
      change framing.feed ⟨frames, frame.take framing.headerSize⟩ (frame.drop framing.headerSize) = _
      have rest : (frame.drop framing.headerSize).length = size + 1 := by
        rw [List.length_drop]
        omega
      rw [feed_payload known isHeader List.prefix_rfl, split]
      · intro nothing
        rw [nothing] at rest
        contradiction
      · change (frame.take framing.headerSize).length + _ = _
        omega

theorem feed_flatten (positive : 0 < framing.headerSize) {frames : List (List τ)}
    (framed : ∀ frame ∈ frames, framing.Framed frame) (earlier : List (List τ)) :
    framing.feed ⟨earlier, []⟩ frames.flatten = .ok ⟨earlier ++ frames, []⟩ := by
  induction frames generalizing earlier with
  | nil => rw [List.append_nil]; rfl
  | cons frame frames ih =>
      rw [List.flatten_cons, feed_append,
        feed_frame positive (framed frame List.mem_cons_self) earlier]
      change framing.feed ⟨earlier ++ [frame], []⟩ frames.flatten = _
      rw [ih fun other member => framed other (List.mem_cons_of_mem _ member), List.append_assoc]
      rfl

theorem prefix_of_absorb {token : τ} (returned : framing.absorb state token = .ok after) :
    state.frames <+: after.frames := by
  rw [absorb] at returned
  split at returned
  · cases returned
    exact List.prefix_rfl
  · split at returned
    · contradiction
    · split at returned
      · cases returned
        exact List.prefix_append _ _
      · cases returned
        exact List.prefix_rfl

theorem prefix_of_feed (returned : framing.feed state chunk = .ok after) :
    state.frames <+: after.frames := by
  induction chunk generalizing state with
  | nil =>
      cases returned
      exact List.prefix_rfl
  | cons token chunk ih =>
      rw [feed, List.foldlM_cons] at returned
      cases first : framing.absorb state token with
      | error failure =>
          rw [first] at returned
          contradiction
      | ok next =>
          rw [first] at returned
          exact (prefix_of_absorb first).trans (ih returned)

/-- What has come of a stream of frames is not refused, and its whole frames come first. -/
theorem feed_of_prefix (positive : 0 < framing.headerSize) {frames : List (List τ)}
    (framed : ∀ frame ∈ frames, framing.Framed frame) (part : chunk <+: frames.flatten) :
    ∃ after, framing.feed ⟨[], []⟩ chunk = .ok after ∧ after.frames <+: frames ∧
      (chunk = frames.flatten → after = ⟨frames, []⟩) := by
  obtain ⟨rest, split⟩ := part
  have whole := feed_flatten positive framed []
  rw [← split, feed_append, List.nil_append] at whole
  cases fed : framing.feed ⟨[], []⟩ chunk with
  | error failure =>
      rw [fed] at whole
      contradiction
  | ok after =>
      rw [fed] at whole
      refine ⟨after, rfl, prefix_of_feed whole, fun all => ?_⟩
      have nothing : rest = [] := by
        rw [← split] at all
        exact List.append_cancel_left ((List.append_nil chunk).trans all).symm
      rw [nothing] at whole
      exact Except.ok.inj whole

end Framing

end Lycancoin.Data
