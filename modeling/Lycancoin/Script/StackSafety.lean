import Lycancoin.Script.Interpreter

namespace Lycancoin

open Lycancoin.Data

/-- The ways to stop that a script may cause: an error that is set, or the
exception of `CScriptNum`. -/
def Stop.Expected : Stop → Prop
  | .fail _ => True
  | .scriptNum => True
  | _ => False

theorem meets_failIf (condition : Bool) (serror : ScriptError) :
    Meets Stop.Expected (fun _ => condition = false) (failIf condition serror) := by
  cases condition with
  | true => exact trivial
  | false => exact rfl

namespace CScriptNum

theorem littleEndian_lt (vch : Valtype) : littleEndian vch < 256 ^ vch.length := by
  induction vch with
  | nil => exact Nat.one_pos
  | cons byte rest ih =>
      have bound := byte.toNat_lt
      rw [littleEndian, List.length_cons, Nat.pow_succ]
      omega

/-- A number of at most four bytes. -/
theorem setVch_bounds {vch : Valtype} (short : vch.length ≤ nMaxNumSize) :
    -2 ^ 32 ≤ setVch vch ∧ setVch vch ≤ 2 ^ 32 := by
  have low := littleEndian_lt vch
  have four : 256 ^ vch.length ≤ 256 ^ 4 := Nat.pow_le_pow_right (by omega) short
  unfold setVch
  cases last : vch.getLast? with
  | none => simp
  | some back =>
      have sign : 256 ^ (vch.length - 1) ≤ 256 ^ 3 :=
        Nat.pow_le_pow_right (by omega) (by unfold nMaxNumSize at short; omega)
      have signCast : ((256 ^ (vch.length - 1) : Nat) : Int) = 256 ^ (vch.length - 1) := by
        push_cast
        rfl
      have nonneg : (0 : Int) ≤ 256 ^ (vch.length - 1) := by positivity
      simp only
      split <;> omega

theorem meets_ofVch (vch : Valtype) (fRequireMinimal : Bool) :
    Meets Stop.Expected (fun value => -2 ^ 32 ≤ value ∧ value ≤ 2 ^ 32)
      (ofVch vch fRequireMinimal) := by
  unfold ofVch
  refine Meets.ite (fun _ => trivial) fun short => Meets.ite (fun _ => trivial) fun _ => ?_
  exact setVch_bounds (not_lt.mp short)

theorem length_absBytes (passes absvalue : Nat) : (absBytes passes absvalue).length ≤ passes := by
  induction passes generalizing absvalue with
  | zero => exact Nat.le_refl 0
  | succ passes ih =>
      rw [absBytes]
      split
      · exact Nat.zero_le _
      · rw [List.length_cons]
        exact Nat.succ_le_succ (ih _)

/-- Only the smallest number of all cannot be serialized. -/
theorem meets_serialize {value : Int} (above : int64Min < value) :
    Meets Stop.Expected (fun vch : Valtype => vch.length ≤ CScript.MAX_SCRIPT_ELEMENT_SIZE)
      (serialize value) := by
  have eight := length_absBytes 8 value.natAbs
  unfold serialize CScript.MAX_SCRIPT_ELEMENT_SIZE
  refine Meets.ite (fun _ => Meets.pure (Nat.zero_le _)) fun _ =>
    Meets.ite (fun least => absurd least (ne_of_gt above)) fun _ =>
      Meets.ite (fun _ => Meets.pure ?_) fun _ =>
        Meets.ite (fun _ => Meets.pure ?_) fun _ => Meets.pure ?_
  · rw [List.length_append, List.length_singleton]
    omega
  · rw [List.length_append, List.length_singleton, List.length_dropLast]
    omega
  · omega

end CScriptNum

/-- No element is larger than a script may push. -/
def Small (stack : List Valtype) : Prop :=
  ∀ vch ∈ stack, vch.length ≤ CScript.MAX_SCRIPT_ELEMENT_SIZE

namespace Small

variable {stack : List Valtype} {vch : Valtype}

theorem cons (small : Small stack)
    (fits : vch.length ≤ CScript.MAX_SCRIPT_ELEMENT_SIZE) : Small (vch :: stack) := by
  intro other member
  rcases List.mem_cons.mp member with same | inside
  · exact same ▸ fits
  · exact small other inside

theorem subset {other : List Valtype} (small : Small stack) (inside : other ⊆ stack) :
    Small other := fun vch member => small vch (inside member)

theorem append {other : List Valtype} (small : Small stack) (smallOther : Small other) :
    Small (stack ++ other) := by
  intro vch member
  rcases List.mem_append.mp member with left | right
  · exact small vch left
  · exact smallOther vch right

theorem set (small : Small stack) (index : Nat)
    (fits : vch.length ≤ CScript.MAX_SCRIPT_ELEMENT_SIZE) : Small (stack.set index vch) := by
  intro other member
  rcases List.mem_or_eq_of_mem_set member with inside | same
  · exact small other inside
  · exact same ▸ fits

end Small

theorem vchBool_fits (holds : Bool) :
    (vchBool holds).length ≤ CScript.MAX_SCRIPT_ELEMENT_SIZE := by
  cases holds <;> decide

namespace Stack

variable {stack : Stack}

theorem meets_needs (stack : Stack) (depth : Nat) :
    Meets Stop.Expected (fun _ => depth ≤ stack.length) (stack.needs depth) :=
  (meets_failIf _ _).mono fun _ enough => by simpa using enough

theorem meets_stacktop (small : Small stack) {depth : Nat} (positive : 1 ≤ depth)
    (deep : depth ≤ stack.length) :
    Meets Stop.Expected (fun vch => vch.length ≤ CScript.MAX_SCRIPT_ELEMENT_SIZE)
      (stack.stacktop depth) := by
  obtain ⟨below, rfl⟩ := Nat.exists_eq_add_of_le' positive
  have inside : below < stack.length := by omega
  rw [stacktop, List.getElem?_eq_getElem inside]
  exact small _ (List.getElem_mem inside)

theorem meets_popstack (small : Small stack) (deep : 1 ≤ stack.length) :
    Meets Stop.Expected (fun after : Stack => Small after ∧ after.length + 1 = stack.length)
      stack.popstack := by
  cases stack with
  | nil => simp at deep
  | cons vch rest =>
      exact ⟨small.subset (List.subset_cons_self vch rest), rfl⟩

theorem meets_eraseTop (small : Small stack) {depth : Nat} (positive : 1 ≤ depth)
    (deep : depth ≤ stack.length) :
    Meets Stop.Expected Small (stack.eraseTop depth) := by
  rw [eraseTop, if_pos ⟨positive, deep⟩]
  exact small.subset (List.eraseIdx_sublist stack (depth - 1)).subset

theorem meets_eraseRange (small : Small stack) {first last : Nat} (ordered : last ≤ first)
    (deep : first ≤ stack.length) : Meets Stop.Expected Small (stack.eraseRange first last) := by
  rw [eraseRange, if_pos ⟨ordered, deep⟩]
  exact Small.append (small.subset (List.take_subset last stack))
    (small.subset (List.drop_subset first stack))

theorem meets_insertTop (small : Small stack) {depth : Nat} {vch : Valtype}
    (fits : vch.length ≤ CScript.MAX_SCRIPT_ELEMENT_SIZE) (deep : depth ≤ stack.length) :
    Meets Stop.Expected Small (stack.insertTop depth vch) := by
  rw [insertTop, if_pos deep]
  exact Small.append (small.subset (List.take_subset depth stack))
    (Small.cons (small.subset (List.drop_subset depth stack)) fits)

theorem meets_swapTop (small : Small stack) {first second : Nat}
    (firstPositive : 1 ≤ first) (firstDeep : first ≤ stack.length)
    (secondPositive : 1 ≤ second) (secondDeep : second ≤ stack.length) :
    Meets Stop.Expected (fun after : Stack => Small after ∧ after.length = stack.length)
      (stack.swapTop first second) :=
  Meets.bind (meets_stacktop small firstPositive firstDeep) fun vch1 fits1 =>
    Meets.bind (meets_stacktop small secondPositive secondDeep) fun vch2 fits2 =>
      Meets.pure ⟨(small.set _ fits2).set _ fits1, by simp⟩

theorem meets_number (small : Small stack) {depth : Nat} (fRequireMinimal : Bool)
    (positive : 1 ≤ depth) (deep : depth ≤ stack.length) :
    Meets Stop.Expected (fun value => -2 ^ 32 ≤ value ∧ value ≤ 2 ^ 32)
      (stack.number depth fRequireMinimal) :=
  Meets.bind (meets_stacktop small positive deep) fun vch _ =>
    CScriptNum.meets_ofVch vch fRequireMinimal

theorem meets_pushNumber (small : Small stack) {bn : Int} (above : CScriptNum.int64Min < bn) :
    Meets Stop.Expected (fun after : Stack => Small after ∧ after.length = stack.length + 1)
      (stack.pushNumber bn) :=
  Meets.bind (CScriptNum.meets_serialize above) fun _ fits =>
    Meets.pure ⟨small.cons fits, List.length_cons⟩

theorem meets_verify (small : Small stack) (deep : 1 ≤ stack.length) (holds : Bool)
    (serror : ScriptError) : Meets Stop.Expected Small (stack.verify holds serror) :=
  Meets.bind (meets_failIf _ _) fun _ _ => (meets_popstack small deep).mono fun _ after => after.1

/-- The operands of the numeric opcodes are far from overflowing. -/
theorem meets_unaryResult {bn : Int} (bounds : -2 ^ 32 ≤ bn ∧ bn ≤ 2 ^ 32) (op : UnaryOp) :
    Meets Stop.Expected (fun value => CScriptNum.int64Min < value) (unaryResult bn op) := by
  have bit : ∀ holds, CScriptNum.int64Min < CScriptNum.ofBool holds := by decide
  cases op with
  | OP_1ADD =>
      unfold unaryResult CScriptNum.addAssign CScriptNum.int64Max CScriptNum.int64Min
      refine Meets.ite (fun _ => Meets.pure ?_) fun wraps => absurd ?_ wraps <;> omega
  | OP_1SUB =>
      unfold unaryResult CScriptNum.subAssign CScriptNum.int64Max CScriptNum.int64Min
      refine Meets.ite (fun _ => Meets.pure ?_) fun wraps => absurd ?_ wraps <;> omega
  | OP_NEGATE =>
      unfold unaryResult CScriptNum.neg CScriptNum.int64Min
      refine Meets.ite (fun least => absurd least ?_) fun _ => Meets.pure ?_ <;> omega
  | OP_ABS =>
      unfold unaryResult CScriptNum.neg CScriptNum.int64Min
      refine Meets.ite (fun _ => Meets.ite (fun least => absurd least ?_) fun _ => Meets.pure ?_)
        fun _ => Meets.pure ?_ <;> omega
  | OP_NOT => exact bit _
  | OP_0NOTEQUAL => exact bit _

theorem meets_binaryResult {bn1 bn2 : Int} (bounds1 : -2 ^ 32 ≤ bn1 ∧ bn1 ≤ 2 ^ 32)
    (bounds2 : -2 ^ 32 ≤ bn2 ∧ bn2 ≤ 2 ^ 32) (op : BinaryOp) :
    Meets Stop.Expected (fun value => CScriptNum.int64Min < value) (binaryResult bn1 bn2 op) := by
  have bit : ∀ holds, CScriptNum.int64Min < CScriptNum.ofBool holds := by decide
  cases op with
  | OP_ADD =>
      unfold binaryResult CScriptNum.add CScriptNum.int64 CScriptNum.int64Max CScriptNum.int64Min
      refine Meets.ite (fun _ => Meets.pure ?_) fun wraps => absurd ?_ wraps <;> omega
  | OP_SUB =>
      unfold binaryResult CScriptNum.sub CScriptNum.int64 CScriptNum.int64Max CScriptNum.int64Min
      refine Meets.ite (fun _ => Meets.pure ?_) fun wraps => absurd ?_ wraps <;> omega
  | OP_MIN =>
      unfold binaryResult CScriptNum.int64Min
      refine Meets.pure ?_
      split <;> omega
  | OP_MAX =>
      unfold binaryResult CScriptNum.int64Min
      refine Meets.pure ?_
      split <;> omega
  | _ => exact bit _

theorem hashResult_fits (hashes : Hashes) (vch : Valtype) (op : HashOp) :
    (hashResult hashes vch op).length ≤ CScript.MAX_SCRIPT_ELEMENT_SIZE := by
  cases op <;> simp [hashResult, CScript.MAX_SCRIPT_ELEMENT_SIZE]

theorem meets_op2Drop (small : Small stack) : Meets Stop.Expected Small stack.op2Drop :=
  Meets.bind (meets_needs stack 2) fun _ deep =>
    Meets.bind (meets_popstack small (by omega)) fun _ next =>
      (meets_popstack next.1 (by omega)).mono fun _ after => after.1

theorem meets_op2Dup (small : Small stack) : Meets Stop.Expected Small stack.op2Dup :=
  Meets.bind (meets_needs stack 2) fun _ deep =>
    Meets.bind (meets_stacktop small (by omega) (by omega)) fun _ fits1 =>
      Meets.bind (meets_stacktop small (by omega) (by omega)) fun _ fits2 =>
        Meets.pure ((small.cons fits1).cons fits2)

theorem meets_op3Dup (small : Small stack) : Meets Stop.Expected Small stack.op3Dup :=
  Meets.bind (meets_needs stack 3) fun _ deep =>
    Meets.bind (meets_stacktop small (by omega) (by omega)) fun _ fits1 =>
      Meets.bind (meets_stacktop small (by omega) (by omega)) fun _ fits2 =>
        Meets.bind (meets_stacktop small (by omega) (by omega)) fun _ fits3 =>
          Meets.pure (((small.cons fits1).cons fits2).cons fits3)

theorem meets_op2Over (small : Small stack) : Meets Stop.Expected Small stack.op2Over :=
  Meets.bind (meets_needs stack 4) fun _ deep =>
    Meets.bind (meets_stacktop small (by omega) (by omega)) fun _ fits1 =>
      Meets.bind (meets_stacktop small (by omega) (by omega)) fun _ fits2 =>
        Meets.pure ((small.cons fits1).cons fits2)

theorem meets_op2Rot (small : Small stack) : Meets Stop.Expected Small stack.op2Rot :=
  Meets.bind (meets_needs stack 6) fun _ deep =>
    Meets.bind (meets_stacktop small (by omega) (by omega)) fun _ fits1 =>
      Meets.bind (meets_stacktop small (by omega) (by omega)) fun _ fits2 =>
        Meets.bind (meets_eraseRange small (by omega) (by omega)) fun _ next =>
          Meets.pure ((next.cons fits1).cons fits2)

theorem meets_op2Swap (small : Small stack) : Meets Stop.Expected Small stack.op2Swap :=
  Meets.bind (meets_needs stack 4) fun _ deep =>
    Meets.bind (meets_swapTop small (by omega) (by omega) (by omega) (by omega)) fun _ next =>
      (meets_swapTop next.1 (by omega) (by omega) (by omega) (by omega)).mono
        fun _ after => after.1

theorem meets_opIfDup (small : Small stack) : Meets Stop.Expected Small stack.opIfDup :=
  Meets.bind (meets_needs stack 1) fun _ deep =>
    Meets.bind (meets_stacktop small (by omega) (by omega)) fun vch fits => by
      refine Meets.pure ?_
      split
      · exact small.cons fits
      · exact small

theorem meets_opDepth (small : Small stack) : Meets Stop.Expected Small stack.opDepth :=
  (meets_pushNumber small (by unfold CScriptNum.int64Min; omega)).mono fun _ after => after.1

theorem meets_opDrop (small : Small stack) : Meets Stop.Expected Small stack.opDrop :=
  Meets.bind (meets_needs stack 1) fun _ deep =>
    (meets_popstack small (by omega)).mono fun _ after => after.1

theorem meets_opDup (small : Small stack) : Meets Stop.Expected Small stack.opDup :=
  Meets.bind (meets_needs stack 1) fun _ deep =>
    Meets.bind (meets_stacktop small (by omega) (by omega)) fun _ fits =>
      Meets.pure (small.cons fits)

theorem meets_opNip (small : Small stack) : Meets Stop.Expected Small stack.opNip :=
  Meets.bind (meets_needs stack 2) fun _ deep => meets_eraseTop small (by omega) (by omega)

theorem meets_opOver (small : Small stack) : Meets Stop.Expected Small stack.opOver :=
  Meets.bind (meets_needs stack 2) fun _ deep =>
    Meets.bind (meets_stacktop small (by omega) (by omega)) fun _ fits =>
      Meets.pure (small.cons fits)

/-- The test of the index leaves `OP_PICK` and `OP_ROLL` inside the stack. -/
theorem meets_opPickRoll (small : Small stack) (fRequireMinimal roll : Bool) :
    Meets Stop.Expected Small (stack.opPickRoll fRequireMinimal roll) :=
  Meets.bind (meets_needs stack 2) fun _ deep =>
    Meets.bind (meets_number small fRequireMinimal (by omega) (by omega)) fun bn _ =>
      Meets.bind (meets_popstack small (by omega)) fun rest next =>
        Meets.bind (meets_failIf _ _) fun _ inside => by
          have range : 0 ≤ CScriptNum.getint bn ∧ CScriptNum.getint bn < rest.length := by
            simpa using inside
          have kept : Meets Stop.Expected Small
              (if roll then rest.eraseTop ((CScriptNum.getint bn).toNat + 1) else .ok rest) :=
            Meets.ite (fun _ => meets_eraseTop next.1 (by omega) (by omega))
              fun _ => Meets.pure next.1
          exact Meets.bind (meets_stacktop next.1 (by omega) (by omega)) fun vch fits =>
            Meets.bind kept fun _ after => Meets.pure (after.cons fits)

theorem meets_opRot (small : Small stack) : Meets Stop.Expected Small stack.opRot :=
  Meets.bind (meets_needs stack 3) fun _ deep =>
    Meets.bind (meets_swapTop small (by omega) (by omega) (by omega) (by omega)) fun _ next =>
      (meets_swapTop next.1 (by omega) (by omega) (by omega) (by omega)).mono
        fun _ after => after.1

theorem meets_opSwap (small : Small stack) : Meets Stop.Expected Small stack.opSwap :=
  Meets.bind (meets_needs stack 2) fun _ deep =>
    (meets_swapTop small (by omega) (by omega) (by omega) (by omega)).mono fun _ after => after.1

theorem meets_opTuck (small : Small stack) : Meets Stop.Expected Small stack.opTuck :=
  Meets.bind (meets_needs stack 2) fun _ deep =>
    Meets.bind (meets_stacktop small (by omega) (by omega)) fun _ fits =>
      meets_insertTop small fits (by omega)

theorem meets_opSize (small : Small stack) : Meets Stop.Expected Small stack.opSize :=
  Meets.bind (meets_needs stack 1) fun _ deep =>
    Meets.bind (meets_stacktop small (by omega) (by omega)) fun _ _ =>
      (meets_pushNumber small (by unfold CScriptNum.int64Min; omega)).mono fun _ after => after.1

theorem meets_opVerify (small : Small stack) : Meets Stop.Expected Small stack.opVerify :=
  Meets.bind (meets_needs stack 1) fun _ deep =>
    Meets.bind (meets_stacktop small (by omega) (by omega)) fun _ _ =>
      meets_verify small (by omega) _ _

/-- A result on the stack, which the `VERIFY` variant of an opcode drops. -/
theorem meets_result (small : Small stack) (fVerify holds : Bool) (serror : ScriptError) :
    Meets Stop.Expected Small
      (if fVerify then verify (vchBool holds :: stack) holds serror
        else .ok (vchBool holds :: stack)) := by
  have pushed : Small (vchBool holds :: stack) := small.cons (vchBool_fits holds)
  exact Meets.ite (fun _ => meets_verify pushed (by simp) holds serror) fun _ => Meets.pure pushed

theorem meets_opEqual (small : Small stack) (fVerify : Bool) :
    Meets Stop.Expected Small (stack.opEqual fVerify) :=
  Meets.bind (meets_needs stack 2) fun _ deep =>
    Meets.bind (meets_stacktop small (by omega) (by omega)) fun _ _ =>
      Meets.bind (meets_stacktop small (by omega) (by omega)) fun _ _ =>
        Meets.bind (meets_popstack small (by omega)) fun _ next =>
          Meets.bind (meets_popstack next.1 (by omega)) fun _ rest =>
            meets_result rest.1 fVerify _ _

theorem meets_opUnary (small : Small stack) (fRequireMinimal : Bool) (op : UnaryOp) :
    Meets Stop.Expected Small (stack.opUnary fRequireMinimal op) :=
  Meets.bind (meets_needs stack 1) fun _ deep =>
    Meets.bind (meets_number small fRequireMinimal (by omega) (by omega)) fun _ bounds =>
      Meets.bind (meets_unaryResult bounds op) fun _ above =>
        Meets.bind (meets_popstack small (by omega)) fun _ next =>
          (meets_pushNumber next.1 above).mono fun _ after => after.1

theorem meets_opBinary (small : Small stack) (fRequireMinimal : Bool) (op : BinaryOp) :
    Meets Stop.Expected Small (stack.opBinary fRequireMinimal op) :=
  Meets.bind (meets_needs stack 2) fun _ deep =>
    Meets.bind (meets_number small fRequireMinimal (by omega) (by omega)) fun _ bounds1 =>
      Meets.bind (meets_number small fRequireMinimal (by omega) (by omega)) fun _ bounds2 =>
        Meets.bind (meets_binaryResult bounds1 bounds2 op) fun _ above =>
          Meets.bind (meets_popstack small (by omega)) fun _ next =>
            Meets.bind (meets_popstack next.1 (by omega)) fun _ rest =>
              Meets.bind (meets_pushNumber rest.1 above) fun _ after =>
                Meets.ite
                  (fun _ => Meets.bind (meets_stacktop after.1 (by omega) (by omega)) fun _ _ =>
                    meets_verify after.1 (by omega) _ _)
                  fun _ => Meets.pure after.1

theorem meets_opWithin (small : Small stack) (fRequireMinimal : Bool) :
    Meets Stop.Expected Small (stack.opWithin fRequireMinimal) :=
  Meets.bind (meets_needs stack 3) fun _ deep =>
    Meets.bind (meets_number small fRequireMinimal (by omega) (by omega)) fun _ _ =>
      Meets.bind (meets_number small fRequireMinimal (by omega) (by omega)) fun _ _ =>
        Meets.bind (meets_number small fRequireMinimal (by omega) (by omega)) fun _ _ =>
          Meets.bind (meets_popstack small (by omega)) fun _ next =>
            Meets.bind (meets_popstack next.1 (by omega)) fun _ rest =>
              Meets.bind (meets_popstack rest.1 (by omega)) fun _ last =>
                Meets.pure (last.1.cons (vchBool_fits _))

theorem meets_opHash (small : Small stack) (hashes : Hashes) (op : HashOp) :
    Meets Stop.Expected Small (stack.opHash hashes op) :=
  Meets.bind (meets_needs stack 1) fun _ deep =>
    Meets.bind (meets_stacktop small (by omega) (by omega)) fun vch _ =>
      Meets.bind (meets_popstack small (by omega)) fun _ next =>
        Meets.pure (next.1.cons (hashResult_fits hashes vch op))

/-- The numbers that `OP_1NEGATE` and `OP_1` to `OP_16` push. -/
def StackOp.Pushable : StackOp → Prop
  | .OP_N value => CScriptNum.int64Min < value
  | _ => True

theorem meets_run (small : Small stack) (hashes : Hashes) (fRequireMinimal : Bool) (op : StackOp)
    (pushable : StackOp.Pushable op) :
    Meets Stop.Expected Small (stack.run hashes fRequireMinimal op) := by
  cases op with
  | OP_N value => exact (meets_pushNumber small pushable).mono fun _ after => after.1
  | OP_VERIFY => exact meets_opVerify small
  | OP_2DROP => exact meets_op2Drop small
  | OP_2DUP => exact meets_op2Dup small
  | OP_3DUP => exact meets_op3Dup small
  | OP_2OVER => exact meets_op2Over small
  | OP_2ROT => exact meets_op2Rot small
  | OP_2SWAP => exact meets_op2Swap small
  | OP_IFDUP => exact meets_opIfDup small
  | OP_DEPTH => exact meets_opDepth small
  | OP_DROP => exact meets_opDrop small
  | OP_DUP => exact meets_opDup small
  | OP_NIP => exact meets_opNip small
  | OP_OVER => exact meets_opOver small
  | OP_PICK => exact meets_opPickRoll small fRequireMinimal false
  | OP_ROLL => exact meets_opPickRoll small fRequireMinimal true
  | OP_ROT => exact meets_opRot small
  | OP_SWAP => exact meets_opSwap small
  | OP_TUCK => exact meets_opTuck small
  | OP_SIZE => exact meets_opSize small
  | OP_EQUAL => exact meets_opEqual small false
  | OP_EQUALVERIFY => exact meets_opEqual small true
  | unary op => exact meets_opUnary small fRequireMinimal op
  | binary op => exact meets_opBinary small fRequireMinimal op
  | OP_WITHIN => exact meets_opWithin small fRequireMinimal
  | hash op => exact meets_opHash small hashes op

end Stack

end Lycancoin
