import StackMachine.Proofs.Machine.Hosting

/-!
# What a step does to calls and values

Most instructions leave the calls alone but for the pointer of the innermost one, and
change the stack at its top. What they change lies above the base of the innermost call,
or it is the topmost value they leave: an instruction that takes values off, however far
down, puts back one at most.

The others are calls and returns. A call of a bytecode function adds a call to the others
and leaves the values where they are. The result of a native function takes the place of
callee and arguments. A return cuts the stack down to the callee and puts the result there.

`Transition` has one case for each of these. Nothing is assumed of the machine: it may be
one that no run comes to.
-/

namespace StackMachine

/-- A call that has read an instruction. -/
def Frame.past (f : Frame) (op : Opcode) : Frame :=
  { f with ip := f.ip + 1 + op.operandWidth }

/-- The values `s'` are what is left of `s` when some have been taken off. -/
def Cut (s s' : Array Value) : Prop :=
  ∀ i, i < s'.size → s'[i]? = s[i]?

/-- Below place `base` the values `s'` are those of `s`, except for the topmost one. -/
def Reworked (base : Nat) (s s' : Array Value) : Prop :=
  ∀ i, i < base → i + 1 < s'.size → s'[i]? = s[i]?

namespace Machine

/-- Whether an instruction jumps if it is executed now. -/
def Jumps (m : Machine) : Opcode → Prop
  | .jump | .loop => True
  | .jumpIfFalse => ∃ v, m.stack.back? = some v ∧ v.isTruthy = false
  | _ => False

/-- What an instruction does that neither calls nor returns. The innermost call `f` has
read it already. -/
structure Stays (op : Opcode) (n : Nat) (rest : Array Frame) (f : Frame) (m m' : Machine) : Prop where
  jumped : m.Jumps op → ∃ ip : Nat, (ip : Int) = Chunk.jumpTarget op f.ip n ∧
    m'.frames = rest.push { f with ip }
  passed : ¬ m.Jumps op → m'.frames = rest.push f
  values : Reworked f.base m.stack m'.stack

/-- What a step does to the values and the calls of a machine. The innermost call is `f`,
which comes to an instruction with operand `n`; the others are `rest`. -/
inductive Transition (n : Nat) (rest : Array Frame) (f : Frame) (m m' : Machine) : Opcode → Prop where
  | stays {op : Opcode} : op ≠ .call → op ≠ .ret → Stays op n rest (f.past op) m m' →
      Transition n rest f m m' op
  | calls {x : Handle} {g : BytecodeFunction} : n < m.stack.size →
      m.stack[m.stack.size - (n + 1)]? = some (.object x) → m.heap.function? x = some g →
      m'.stack = m.stack →
      m'.frames = (rest.push (f.past .call)).push { function := x, base := m.stack.size - n } →
      Transition n rest f m m' .call
  | answers {x : Handle} {native : NativeFunction} {v : Value} : n < m.stack.size →
      m.stack[m.stack.size - (n + 1)]? = some (.object x) → m.heap.native? x = some native →
      m'.stack = (m.stack.take (m.stack.size - (n + 1))).push v →
      m'.frames = rest.push (f.past .call) → Transition n rest f m m' .call
  | returns {values : Array Value} {v : Value} : m.stack = values.push v → f.base ≠ 0 →
      rest ≠ #[] → m'.stack = (values.take (f.base - 1)).push v → m'.frames = rest →
      Transition n rest f m m' .ret

/-! ## Taking values off and putting one back -/

/-- The machine `m'` has the calls of `m`, and what is left of its values. -/
structure Trimmed (m m' : Machine) : Prop where
  frames : m'.frames = m.frames
  values : Cut m.stack m'.stack

/-- The machine `m'` has the calls of `m`, and below place `base` its values but for the
topmost one. -/
structure Kept (base : Nat) (m m' : Machine) : Prop where
  frames : m'.frames = m.frames
  values : Reworked base m.stack m'.stack

namespace Trimmed

variable {m m' : Machine}

theorem refl (m : Machine) : m.Trimmed m :=
  ⟨rfl, fun _ _ => rfl⟩

theorem pop (h : m.Trimmed m') {values : Array Value} {v : Value} (hv : m'.stack = values.push v) :
    m.Trimmed { m' with stack := values } where
  frames := h.frames
  values := by
    intro i hi
    have hold := h.values i (by rw [hv, Array.size_push]; exact Nat.lt_succ_of_lt hi)
    rw [hv, Array.getElem?_push_lt hi] at hold
    rw [← hold, Array.getElem?_eq_getElem hi]

theorem kept (h : m.Trimmed m') (base : Nat) : Kept base m m' :=
  ⟨h.frames, fun i _ hi => h.values i (by omega)⟩

theorem push (h : m.Trimmed m') (base : Nat) (v : Value) :
    Kept base m { m' with stack := m'.stack.push v } where
  frames := h.frames
  values := by
    intro i _ hi
    simp only [Array.size_push] at hi
    have hlt : i < m'.stack.size := by omega
    simp only [Array.getElem?_push]
    rw [if_neg (by omega)]
    exact h.values i hlt

end Trimmed

end Machine

namespace Exec

open Machine

variable {m m' : Machine} {base : Nat}

theorem kept_push (h : m.Trimmed m') (v : Value) :
    Ends (push v) m' (fun _ => Kept base m) fun _ _ => True :=
  ends_push (fun _ => h.push base v) fun _ => trivial

theorem trimmed_pop (h : m.Trimmed m') :
    Ends pop m' (fun _ => m.Trimmed) fun _ _ => True :=
  ends_pop (fun _ _ hv => h.pop hv) fun _ => trivial

theorem kept_replace (h : m.Trimmed m') (r : Value → Value) :
    Ends (do let v ← pop; push (r v)) m' (fun _ => Kept base m) fun _ _ => True :=
  ends_bind ((trimmed_pop h).mono (fun _ _ h₁ => kept_push h₁ _) fun _ _ => id)

theorem kept_replaceTwo (h : m.Trimmed m') (r : Value → Value → Value) :
    Ends (do let b ← pop; let a ← pop; push (r a b)) m' (fun _ => Kept base m) fun _ _ => True :=
  ends_bind ((trimmed_pop h).mono (fun b _ h₁ => kept_replace h₁ fun a => r a b) fun _ _ => id)

theorem kept_binary (op : Value → Value → Except OperandError Value) :
    Ends (binary op) m (fun _ => Kept base m) fun _ _ => True := by
  refine ends_bind (ends_peek (fun b _ _ => ?_) fun _ => trivial)
  refine ends_bind (ends_peek (fun a _ _ => ?_) fun _ => trivial)
  exact ends_bind (ends_orMismatch (fun r _ => kept_replaceTwo (.refl m) fun _ _ => r)
    fun _ _ => trivial)

theorem kept_add : Ends add m (fun _ => Kept base m) fun _ _ => True := by
  refine ends_bind (ends_peek (fun b _ _ => ?_) fun _ => trivial)
  refine ends_bind (ends_peek (fun a _ _ => ends_get ?_) fun _ => trivial)
  split
  · rename_i joined _
    refine ends_bind (ends_intern (fun x m' hx => ?_) fun _ _ _ => trivial)
    have hinterned : m.Trimmed (m.intern joined).2 := ⟨rfl, fun _ _ => rfl⟩
    rw [hx] at hinterned
    exact kept_replaceTwo hinterned fun _ _ => .object x
  · exact ends_bind (ends_orMismatch (fun r _ => kept_replaceTwo (.refl m) fun _ _ => r)
      fun _ _ => trivial)

/-- The slot of a local variable is above the base. -/
theorem kept_setSlot {slot : Nat} (hslot : base ≤ slot) (v : Value) :
    Ends (setSlot slot v) m (fun _ => Kept base m) fun _ _ => True := by
  refine ends_setSlot (fun _ => ⟨rfl, fun i hi _ => ?_⟩) fun _ => trivial
  rw [Array.getElem?_setIfInBounds, if_neg (by omega)]

/-- **An instruction that stays in its call and does not jump** leaves the calls alone. -/
theorem kept_perform {rest : Array Frame} {f : Frame} (hf : m.frames = rest.push f) {op : Opcode}
    (n : Nat) (hcall : op ≠ .call) (hret : op ≠ .ret) (hjump : ¬ m.Jumps op) :
    Ends (perform op n) m (fun _ => Kept f.base m) fun _ _ => True := by
  have hrefl := Trimmed.refl m
  cases op with
  | constant =>
      exact ends_bind (ends_constant hf (fun _ v _ _ => kept_push hrefl v) (fun _ => trivial)
        fun _ _ _ => trivial)
  | pushNil => exact kept_push hrefl _
  | pushTrue => exact kept_push hrefl _
  | pushFalse => exact kept_push hrefl _
  | pop =>
      exact ends_bind ((trimmed_pop hrefl).mono (fun _ _ h => ends_pure (h.kept _)) fun _ _ => id)
  | getLocal =>
      refine ends_bind (ends_localSlot hf (fun _ => ?_) fun _ => trivial)
      exact ends_bind (ends_getSlot (fun v _ => kept_push hrefl v) fun _ => trivial)
  | setLocal =>
      refine ends_bind (ends_localSlot hf (fun _ => ?_) fun _ => trivial)
      exact ends_bind (ends_peek (fun v _ _ => kept_setSlot (by omega) v) fun _ => trivial)
  | getGlobal =>
      refine ends_name_bind hf (fun _ _ _ => trivial) fun x => ends_get ?_
      split
      · exact kept_push hrefl _
      · exact ends_undefined trivial
  | defineGlobal =>
      refine ends_name_bind hf (fun _ _ _ => trivial) fun x => ?_
      refine ends_bind (ends_peek (fun v _ _ => ?_) fun _ => trivial)
      refine ends_bind (ends_setGlobal (ends_bind ?_))
      have hset : m.Trimmed { m with globals := m.globals.insert x v } := ⟨rfl, fun _ _ => rfl⟩
      exact (trimmed_pop hset).mono (fun _ _ h => ends_pure (h.kept _)) fun _ _ => id
  | setGlobal =>
      refine ends_name_bind hf (fun _ _ _ => trivial) fun x => ?_
      refine ends_bind (ends_peek (fun v _ _ => ends_get ?_) fun _ => trivial)
      split
      · exact ends_setGlobal ⟨rfl, fun _ _ _ => rfl⟩
      · exact ends_undefined trivial
  | equal => exact kept_replaceTwo hrefl _
  | notEqual => exact kept_replaceTwo hrefl _
  | greater => exact kept_binary _
  | greaterEqual => exact kept_binary _
  | less => exact kept_binary _
  | lessEqual => exact kept_binary _
  | add => exact kept_add
  | subtract => exact kept_binary _
  | multiply => exact kept_binary _
  | divide => exact kept_binary _
  | not => exact kept_replace hrefl Value.not
  | negate =>
      refine ends_bind (ends_peek (fun v _ _ => ?_) fun _ => trivial)
      exact ends_bind (ends_orMismatch (fun r _ => kept_replace hrefl fun _ => r) fun _ _ => trivial)
  | print =>
      refine ends_bind ((trimmed_pop hrefl).mono (fun v m' h => ?_) fun _ _ => id)
      exact ends_print (fun _ _ => ⟨h.frames, (h.kept _).values⟩) fun _ _ => trivial
  | jump => exact absurd trivial hjump
  | loop => exact absurd trivial hjump
  | jumpIfFalse =>
      refine ends_bind (ends_pop (fun values v hv => ?_) fun _ => trivial)
      have htruthy : v.isTruthy = true := by
        cases hb : v.isTruthy with
        | true => rfl
        | false => exact absurd ⟨v, by rw [hv, Array.back?_push], hb⟩ hjump
      rw [htruthy]
      exact ends_pure ((hrefl.pop hv).kept _)
  | call => exact absurd rfl hcall
  | ret => exact absurd rfl hret

/-! ## Jumps -/

/-- A jump ends at its target if that lies in the code, and in corrupt bytecode
otherwise. -/
theorem ends_perform_jump {rest : Array Frame} {f : Frame} {g : BytecodeFunction}
    (hf : m.frames = rest.push f) (hg : m.heap.function? f.function = some g) {op : Opcode} {n : Nat}
    (hjump : m.Jumps op) {Q : Unit → Machine → Prop} {E : Halt → Machine → Prop}
    (hok : ∀ (target : Nat) m', (target : Int) = Chunk.jumpTarget op f.ip n →
      target ≤ g.chunk.size → m'.frames = rest.push { f with ip := target } →
      Cut m.stack m'.stack → Q () m')
    (herr : ∀ m', ¬ (0 ≤ Chunk.jumpTarget op f.ip n ∧ Chunk.jumpTarget op f.ip n ≤ g.chunk.size) →
      m'.lastOffset = f.ip - 1 → E (.failed (.corruptBytecode (f.ip - 1) .jumpOutside)) m') :
    Ends (perform op n) m Q E := by
  have hlands : ∀ m₁ : Machine, m₁.frames = m.frames → m₁.heap = m.heap → Cut m.stack m₁.stack →
      Ends (jump op n) m₁ Q E := by
    intro m₁ hframes hheap hcut
    have hf₁ : m₁.frames = rest.push f := hframes.trans hf
    have hlast : m₁.lastOffset = f.ip - 1 := by
      unfold lastOffset
      rw [hf₁, Array.back?_push]
      rfl
    refine ends_jump hf₁ (fun g' target hg' ht hle => ?_) (fun hnone => ?_) fun g' hg' hout => ?_
    · rw [hheap, hg] at hg'
      rw [← Option.some.inj hg'] at hle
      exact hok target _ ht.symm hle rfl hcut
    · rw [hheap, hg] at hnone
      exact absurd hnone (by simp)
    · rw [hheap, hg] at hg'
      rw [← Option.some.inj hg'] at hout
      rw [hlast]
      exact herr m₁ hout hlast
  cases op with
  | jump => exact hlands m rfl rfl fun _ _ => rfl
  | loop => exact hlands m rfl rfl fun _ _ => rfl
  | jumpIfFalse =>
      obtain ⟨v, hv, hfalsy⟩ := hjump
      obtain ⟨values, hvalues⟩ := Array.back?_eq_some_iff.mp hv
      refine ends_bind (ends_pop_top hvalues ?_)
      rw [hfalsy]
      exact hlands _ rfl rfl ((Trimmed.refl m).pop hvalues).values
  | _ => exact hjump.elim

theorem stays_perform {rest : Array Frame} {f : Frame} {g : BytecodeFunction}
    (hf : m.frames = rest.push f) (hg : m.heap.function? f.function = some g) {op : Opcode}
    (n : Nat) (hcall : op ≠ .call) (hret : op ≠ .ret) :
    Ends (perform op n) m (fun _ => Stays op n rest f m) fun _ _ => True := by
  by_cases hjump : m.Jumps op
  · refine ends_perform_jump hf hg hjump (fun target m' ht _ hframes hcut => ?_) fun _ _ _ => trivial
    exact ⟨fun _ => ⟨target, ht, hframes⟩, fun hno => absurd hjump hno,
      fun i _ hi => hcut i (by omega)⟩
  · refine (kept_perform hf n hcall hret hjump).mono (fun _ m' h => ?_) fun _ _ => id
    exact ⟨fun hyes => absurd hyes hjump, fun _ => h.frames.trans hf, h.values⟩

/-! ## Calls and returns -/

/-- A native function leaves the values and the calls alone while it runs. -/
theorem runPrimitive_stacks (p : Primitive) (m : Machine) : ∃ r m',
    runPrimitive p m = .ok r m' ∧ m'.stack = m.stack ∧ m'.frames = m.frames ∧
      m'.config = m.config := by
  induction p generalizing m with
  | done result => exact ⟨result, m, rfl, rfl, rfl, rfl⟩
  | inspect next ih => exact ih m.heap.view m
  | intern text next ih => exact ih (m.intern text).1 (m.intern text).2
  | look next ih => exact ih m.world.now { m with world := m.world.later }

/-- The result of a native function takes the place of callee and arguments. -/
theorem ends_callNative_answers {native : NativeFunction} {argc : Nat}
    (hargc : argc < m.stack.size) {Q : Unit → Machine → Prop} {E : Halt → Machine → Prop}
    (hok : ∀ v m₁, runPrimitive (native.body (m.stack.extract (m.stack.size - argc))) m =
      .ok (.ok v) m₁ → m₁.frames = m.frames →
      Q () { m₁ with stack := (m.stack.take (m.stack.size - (argc + 1))).push v })
    (hroom : ∀ e m', m.config.maxStack < m.stack.size → E (.failed (.runtime e)) m')
    (harity : argc ≠ native.arity.toNat → ∀ e m', E (.failed (.runtime e)) m')
    (hfails : ∀ text e m₁, runPrimitive (native.body (m.stack.extract (m.stack.size - argc))) m =
      .ok (.error text) m₁ → E (.failed (.runtime e)) m₁) :
    Ends (callNative native argc) m Q E := by
  refine ends_callNative (fun _ _ => ?_) (fun hne => harity hne _ _) fun hshort =>
    absurd hshort (by omega)
  obtain ⟨r, m₁, hrun, hstack, hframes, hconfig⟩ :=
    runPrimitive_stacks (native.body (m.stack.extract (m.stack.size - argc))) m
  refine ends_of_ok hrun ?_
  cases r with
  | error text => exact hfails text _ m₁ hrun
  | ok v =>
      dsimp only
      rw [if_neg (by omega), hstack, Nat.sub_sub]
      refine ends_push (fun _ => hok v m₁ hrun hframes) fun hfull => hroom _ _ ?_
      -- what has been taken off makes room for the result
      simp only [Array.take_eq_extract, Array.size_extract, hconfig] at hfull
      omega

theorem transition_call {rest : Array Frame} {f : Frame} (n : Nat) :
    Ends (perform .call n) { m with frames := rest.push (f.past .call) }
      (fun _ m' => Transition n rest f m m' .call) fun _ _ => True := by
  refine ends_bind (ends_peek (fun callee hn hcallee => ?_) fun _ => trivial)
  refine ends_callValue (fun x g hx hg => ?_) (fun x native hx hnative => ?_) (fun _ => trivial)
    fun _ _ _ => trivial
  · subst hx
    refine ends_callFunction (fun _ _ _ => ?_) (fun _ => trivial) (fun _ => trivial) fun _ => trivial
    exact .calls hn hcallee (Heap.function?_eq_some.mpr hg) rfl rfl
  · subst hx
    refine ends_callNative_answers hn (fun v m₁ _ hframes => ?_) (fun _ _ _ => trivial)
      (fun _ _ _ => trivial) fun _ _ _ _ => trivial
    exact .answers hn hcallee (Heap.native?_eq_some.mpr hnative) rfl hframes

theorem transition_ret {rest : Array Frame} {f : Frame} (n : Nat) :
    Ends ret { m with frames := rest.push (f.past .ret) }
      (fun _ m' => Transition n rest f m m' .ret) fun _ _ => True :=
  ends_ret rfl (fun _ => trivial) (fun _ _ _ _ => trivial) (fun _ _ _ _ _ => trivial)
    fun _ _ hv hbase hrest => ends_push (fun _ => .returns hv hbase hrest rfl rfl) fun _ => trivial

/-- What a step does, given the instruction that is next. -/
theorem transition_next {rest : Array Frame} {f : Frame} {g : BytecodeFunction} {op : Opcode}
    {n : Nat} (hf : m.frames = rest.push f) (hg : m.heap.function? f.function = some g)
    (hd : g.chunk.decode f.ip = .instruction op n) :
    Ends step m (fun _ m' => Transition n rest f m m' op) fun _ _ => True := by
  refine ends_step hf hg hd ?_
  by_cases hcall : op = .call
  · subst hcall
    exact transition_call n
  · by_cases hret : op = .ret
    · subst hret
      exact transition_ret n
    · have hstays := stays_perform (m := { m with frames := rest.push (f.past op) }) rfl hg n hcall
        hret
      exact hstays.mono (fun _ _ h => .stays hcall hret ⟨h.jumped, h.passed, h.values⟩)
        fun _ _ => id

/-- **What a step does**, in any machine: it reads an instruction, and the calls and the
values change as the instruction says. -/
theorem transition_step {m m' : Machine} (hs : step m = .ok () m') :
    ∃ (rest : Array Frame) (f : Frame) (g : BytecodeFunction) (op : Opcode) (n : Nat),
      m.frames = rest.push f ∧ m.heap.function? f.function = some g ∧
      g.chunk.decode f.ip = .instruction op n ∧ Transition n rest f m m' op := by
  cases hn : m.next? with
  | none =>
      have hnone : Ends step m (fun _ _ => False) fun _ _ => True :=
        ends_step_none hn fun _ _ => trivial
      exact (hnone.of_ok hs).elim
  | some next =>
      obtain ⟨op, n⟩ := next
      obtain ⟨rest, f, g, hf, hg, hd⟩ := next?_eq_some.mp hn
      exact ⟨rest, f, g, op, n, hf, hg, hd, (transition_next hf hg hd).of_ok hs⟩

end Exec

namespace Machine

namespace Transition

variable {m m' : Machine} {rest : Array Frame} {f : Frame} {op : Opcode} {n : Nat}

/-- The journal has no part in it. -/
theorem of_journal {journal : Journal} (h : Transition n rest f { m with journal } m' op) :
    Transition n rest f m m' op := by
  cases h with
  | stays hcall hret hs => exact .stays hcall hret ⟨hs.jumped, hs.passed, hs.values⟩
  | calls hn hcallee hg hstack hframes => exact .calls hn hcallee hg hstack hframes
  | answers hn hcallee hnative hstack hframes => exact .answers hn hcallee hnative hstack hframes
  | returns hv hbase hrest hstack hframes => exact .returns hv hbase hrest hstack hframes

/-- A step changes no call but the innermost. -/
theorem callers (h : Transition n rest f m m' op) {i : Nat} (hi : i < rest.size) :
    m'.frames[i]? = rest[i]? := by
  cases h with
  | stays _ _ hs =>
      by_cases hj : m.Jumps op
      · obtain ⟨ip, _, hframes⟩ := hs.jumped hj
        rw [hframes, Array.getElem?_push, if_neg (by omega)]
      · rw [hs.passed hj, Array.getElem?_push, if_neg (by omega)]
  | calls _ _ _ _ hframes =>
      rw [hframes, Array.getElem?_push, Array.size_push, if_neg (by omega), Array.getElem?_push,
        if_neg (by omega)]
  | answers _ _ _ _ hframes => rw [hframes, Array.getElem?_push, if_neg (by omega)]
  | returns _ _ _ _ hframes => rw [hframes]

/-- The innermost call moves on behind the instruction, if this does not jump. A call that
it makes lies on top of it. -/
theorem behind (h : Transition n rest f m m' op) (hret : op ≠ .ret) (hjump : ¬ m.Jumps op) :
    m'.frames[rest.size]? = some (f.past op) := by
  cases h with
  | stays _ _ hs => rw [hs.passed hjump, Array.getElem?_push, if_pos rfl]
  | calls _ _ _ _ hframes =>
      rw [hframes, Array.getElem?_push, Array.size_push, if_neg (by omega), Array.getElem?_push,
        if_pos rfl]
  | answers _ _ _ _ hframes => rw [hframes, Array.getElem?_push, if_pos rfl]
  | returns _ _ _ _ _ => exact absurd rfl hret

theorem landed (h : Transition n rest f m m' op) (hjump : m.Jumps op) : ∃ ip : Nat,
    (ip : Int) = Chunk.jumpTarget op (f.past op).ip n ∧
      m'.frames[rest.size]? = some { f with ip } := by
  cases h with
  | stays _ _ hs =>
      obtain ⟨ip, hip, hframes⟩ := hs.jumped hjump
      exact ⟨ip, hip, by rw [hframes, Array.getElem?_push, if_pos rfl]; rfl⟩
  | calls _ _ _ _ _ => exact hjump.elim
  | answers _ _ _ _ _ => exact hjump.elim
  | returns _ _ _ _ _ => exact hjump.elim

/-- A call that does not return keeps its place and its base. -/
theorem innermost (h : Transition n rest f m m' op) (hret : op ≠ .ret) :
    ∃ ip, m'.frames[rest.size]? = some { f with ip } := by
  by_cases hjump : m.Jumps op
  · obtain ⟨ip, _, hlanded⟩ := h.landed hjump
    exact ⟨ip, hlanded⟩
  · exact ⟨_, h.behind hret hjump⟩

end Transition

/-- What a step of a run does. -/
theorem transition_recorded {m m' : Machine} (hs : Exec.step m.recordInstruction = .ok () m') :
    ∃ (rest : Array Frame) (f : Frame) (g : BytecodeFunction) (op : Opcode) (n : Nat),
      m.frames = rest.push f ∧ m.heap.function? f.function = some g ∧
      g.chunk.decode f.ip = .instruction op n ∧ Transition n rest f m m' op := by
  obtain ⟨journal, hj⟩ := m.recordInstruction_eq
  rw [hj] at hs
  obtain ⟨rest, f, g, op, n, hf, hg, hd, h⟩ := Exec.transition_step hs
  exact ⟨rest, f, g, op, n, hf, hg, hd, h.of_journal⟩

end Machine

end StackMachine
