import StackMachine.Proofs.Machine.Containment
import StackMachine.Proofs.Machine.Verified

/-!
# Calls and the values of their callers

A call has the values from its base on. Nothing in the machine holds it to them:
taking a value off the stack, or looking at one, is checked against the bottom of the
whole stack, and bytecode that nobody has checked can take its own callee off and the
values of its callers after that.

As long as every instruction keeps to the values of its own call, the calls stay
apart: their bases grow from the outermost one inwards, none is above the top of the
stack, and what lies below a callee does not change. Certified functions always keep
to their values.
-/

namespace StackMachine

namespace Machine

/-- Whether the instruction that is next finds what it needs among the values of its
own call. -/
def Owning (m : Machine) : Prop :=
  ∀ op n f, m.next? = some (op, n) → m.frames.back? = some f →
    op.needs n ≤ m.stack.size - f.base

/-- The machines at the instruction boundaries of a run, up to the first instruction
that does not find what it needs among the values of its own call. -/
inductive InOwn (m : Machine) (function : Handle) : Machine → Prop where
  | enter {m' : Machine} : Machine.enter function (m.begun function) = .ok () m' →
      InOwn m function m'
  | step {m' m'' : Machine} : InOwn m function m' → m'.Owning →
      Exec.step m'.recordInstruction = .ok () m'' → InOwn m function m''

/-- The bases of the calls, the outermost first. -/
def bases (m : Machine) : List Nat :=
  m.frames.toList.map Frame.base

/-- The calls lie one above the other, and none of them above the stack. -/
structure Stacked (m : Machine) : Prop where
  ordered : m.bases.Pairwise (· < ·)
  height : ∀ f ∈ m.frames, f.base ≤ m.stack.size

/-- The machine `m'` has the calls of `m`, wherever they stand, and the values of `m`
below place `b`. -/
structure Rests (b : Nat) (m m' : Machine) : Prop where
  bases : m'.bases = m.bases
  height : b ≤ m'.stack.size
  below : m'.stack.toList.take b = m.stack.toList.take b

/-! ## Changing the stack above a place -/

namespace Rests

variable {m m' : Machine} {b : Nat}

theorem refl (hb : b ≤ m.stack.size) : Rests b m m :=
  ⟨rfl, hb, rfl⟩

theorem push (h : Rests b m m') (v : Value) : Rests b m { m' with stack := m'.stack.push v } where
  bases := h.bases
  height := by
    have := h.height
    simp only [Array.size_push]
    omega
  below := by
    have hlength : b ≤ m'.stack.toList.length := h.height
    simp only [Array.toList_push]
    rw [List.take_append_of_le_length hlength]
    exact h.below

theorem pop (h : Rests b m m') {values : Array Value} {v : Value} (hv : m'.stack = values.push v)
    (hb : b ≤ values.size) : Rests b m { m' with stack := values } where
  bases := h.bases
  height := hb
  below := by
    have hbelow := h.below
    rw [hv, Array.toList_push, List.take_append_of_le_length hb] at hbelow
    exact hbelow

theorem set (h : Rests b m m') {slot : Nat} (hslot : b ≤ slot) (v : Value) :
    Rests b m { m' with stack := m'.stack.setIfInBounds slot v } where
  bases := h.bases
  height := by
    simp only [Array.size_setIfInBounds]
    exact h.height
  below := by
    simp only [Array.toList_setIfInBounds]
    rw [List.take_set_of_le hslot]
    exact h.below

theorem truncate (h : Rests b m m') {size : Nat} (hsize : b ≤ size) :
    Rests b m { m' with stack := m'.stack.take size } where
  bases := h.bases
  height := by
    have := h.height
    simp only [Array.take_eq_extract, Array.size_extract]
    omega
  below := by
    have htake : (m'.stack.take size).toList = m'.stack.toList.take size := by simp
    simp only [htake, List.take_take, Nat.min_eq_left hsize]
    exact h.below

end Rests

end Machine

namespace Exec

open Machine

variable {m m' : Machine} {b : Nat}

theorem rests_push (h : Rests b m m') (v : Value) :
    Ends (push v) m' (fun _ => Rests b m) fun _ _ => True :=
  ends_push (fun _ => h.push v) fun _ => trivial

/-- A value above the place can be taken off. -/
theorem rests_pop (h : Rests b m m') (hb : b < m'.stack.size) :
    Ends pop m' (fun _ m'' => Rests b m m'' ∧ m''.stack.size + 1 = m'.stack.size)
      fun _ _ => True := by
  refine ends_pop (fun values v hv => ?_) fun _ => trivial
  rw [hv, Array.size_push] at hb
  exact ⟨h.pop hv (by omega), by rw [hv, Array.size_push]⟩

theorem rests_replace (h : Rests b m m') (hb : b < m'.stack.size) (r : Value → Value) :
    Ends (do let v ← pop; push (r v)) m' (fun _ => Rests b m) fun _ _ => True :=
  ends_bind ((rests_pop h hb).mono (fun _ _ h' => rests_push h'.1 _) fun _ _ => id)

theorem rests_replaceTwo (h : Rests b m m') (hb : b + 2 ≤ m'.stack.size)
    (r : Value → Value → Value) :
    Ends (do let y ← pop; let x ← pop; push (r x y)) m' (fun _ => Rests b m) fun _ _ => True := by
  refine ends_bind ((rests_pop h (by omega)).mono (fun y m₁ h₁ => ?_) fun _ _ => id)
  obtain ⟨h₁, hsize⟩ := h₁
  exact rests_replace h₁ (by omega) fun x => r x y

theorem rests_binary (hb : b + 2 ≤ m.stack.size)
    (op : Value → Value → Except OperandError Value) :
    Ends (binary op) m (fun _ => Rests b m) fun _ _ => True := by
  refine ends_bind (ends_peek (fun y _ _ => ?_) fun _ => trivial)
  refine ends_bind (ends_peek (fun x _ _ => ?_) fun _ => trivial)
  refine ends_bind (ends_orMismatch (fun r _ => ?_) fun _ _ => trivial)
  exact rests_replaceTwo (.refl (by omega)) hb fun _ _ => r

theorem rests_add (hb : b + 2 ≤ m.stack.size) :
    Ends add m (fun _ => Rests b m) fun _ _ => True := by
  refine ends_bind (ends_peek (fun y _ _ => ?_) fun _ => trivial)
  refine ends_bind (ends_peek (fun x _ _ => ends_get ?_) fun _ => trivial)
  have hrefl : Rests b m m := .refl (by omega)
  split
  · rename_i joined _
    refine ends_bind (ends_intern (fun z m' hz => ?_) fun _ _ _ => trivial)
    have hinterned : Rests b m (m.intern joined).2 := ⟨rfl, hrefl.height, rfl⟩
    have hsize : b + 2 ≤ (m.intern joined).2.stack.size := hb
    rw [hz] at hinterned hsize
    exact rests_replaceTwo hinterned hsize fun _ _ => .object z
  · refine ends_bind (ends_orMismatch (fun r _ => ?_) fun _ _ => trivial)
    exact rests_replaceTwo hrefl hb fun _ _ => r

/-- The result of a native function goes where its callee was. -/
theorem rests_callNative (hw : m.heap.WellFormed) (native : NativeFunction) {argc : Nat}
    (hb : b + (argc + 1) ≤ m.stack.size) :
    Ends (callNative native argc) m (fun _ => Rests b m) fun _ _ => True := by
  refine ends_callNative_undisturbed hw native (by omega) (fun m₁ v hu => ?_) fun _ _ => trivial
  have hrefl : Rests b m m₁ := by
    refine ⟨?_, by rw [hu.stack]; omega, by rw [hu.stack]⟩
    unfold bases
    rw [hu.frames]
  have hcut : b ≤ m.stack.size - argc - 1 := by omega
  have hpushed := (hrefl.truncate hcut).push v
  rw [hu.stack] at hpushed
  exact hpushed

theorem rests_jump {rest : Array Frame} {f : Frame} (hf : m'.frames = rest.push f)
    (h : Rests b m m') (op : Opcode) (n : Nat) :
    Ends (jump op n) m' (fun _ => Rests b m) fun _ _ => True := by
  refine ends_jump hf (fun g target _ _ _ => ⟨?_, h.height, h.below⟩) (fun _ => trivial)
    fun _ _ _ => trivial
  rw [← h.bases]
  unfold bases
  rw [hf]
  simp

/-- **An instruction that keeps to its own call leaves what lies below**, calls and
returns apart. -/
theorem rests_perform {rest : Array Frame} {f : Frame} (hf : m.frames = rest.push f)
    (hbase : f.base ≤ m.stack.size) {op : Opcode} {n : Nat}
    (hown : op.needs n ≤ m.stack.size - f.base) (hcall : op ≠ .call) (hret : op ≠ .ret) :
    Ends (perform op n) m (fun _ => Rests f.base m) fun _ _ => True := by
  have hrefl : Rests f.base m m := .refl hbase
  have hneeds : f.base + op.needs n ≤ m.stack.size := by omega
  cases op with
  | constant =>
      exact ends_bind (ends_constant hf (fun _ v _ _ => rests_push hrefl v) (fun _ => trivial)
        fun _ _ _ => trivial)
  | pushNil => exact rests_push hrefl _
  | pushTrue => exact rests_push hrefl _
  | pushFalse => exact rests_push hrefl _
  | pop =>
      exact ends_bind ((rests_pop hrefl hneeds).mono (fun _ _ h' => ends_pure h'.1)
        fun _ _ => id)
  | getLocal =>
      refine ends_bind (ends_localSlot hf (fun _ => ?_) fun _ => trivial)
      exact ends_bind (ends_getSlot (fun v _ => rests_push hrefl v) fun _ => trivial)
  | setLocal =>
      -- the slot of a local variable is counted from the base
      refine ends_bind (ends_localSlot hf (fun _ => ?_) fun _ => trivial)
      refine ends_bind (ends_peek (fun v _ _ => ?_) fun _ => trivial)
      exact ends_setSlot (fun _ => hrefl.set (by omega) v) fun _ => trivial
  | getGlobal =>
      refine ends_name_bind hf (fun _ _ _ => trivial) fun x => ends_get ?_
      split
      · exact rests_push hrefl _
      · exact ends_undefined trivial
  | defineGlobal =>
      refine ends_name_bind hf (fun _ _ _ => trivial) fun x => ?_
      refine ends_bind (ends_peek (fun v _ _ => ?_) fun _ => trivial)
      refine ends_bind (ends_setGlobal (ends_bind ?_))
      have hset : Rests f.base m { m with globals := m.globals.insert x v } := ⟨rfl, hbase, rfl⟩
      exact (rests_pop hset hneeds).mono (fun _ _ h' => ends_pure h'.1) fun _ _ => id
  | setGlobal =>
      refine ends_name_bind hf (fun _ _ _ => trivial) fun x => ?_
      refine ends_bind (ends_peek (fun v _ _ => ends_get ?_) fun _ => trivial)
      split
      · exact ends_setGlobal ⟨rfl, hbase, rfl⟩
      · exact ends_undefined trivial
  | equal => exact rests_replaceTwo hrefl hneeds _
  | notEqual => exact rests_replaceTwo hrefl hneeds _
  | greater => exact rests_binary hneeds _
  | greaterEqual => exact rests_binary hneeds _
  | less => exact rests_binary hneeds _
  | lessEqual => exact rests_binary hneeds _
  | add => exact rests_add hneeds
  | subtract => exact rests_binary hneeds _
  | multiply => exact rests_binary hneeds _
  | divide => exact rests_binary hneeds _
  | not => exact rests_replace hrefl hneeds Value.not
  | negate =>
      refine ends_bind (ends_peek (fun v _ _ => ?_) fun _ => trivial)
      refine ends_bind (ends_orMismatch (fun r _ => ?_) fun _ _ => trivial)
      exact rests_replace hrefl hneeds fun _ => r
  | print =>
      refine ends_bind ((rests_pop hrefl hneeds).mono (fun v m' h' => ?_) fun _ _ => id)
      exact ends_print (fun _ _ => ⟨h'.1.bases, h'.1.height, h'.1.below⟩) fun _ _ => trivial
  | jump => exact rests_jump hf hrefl _ n
  | loop => exact rests_jump hf hrefl _ n
  | jumpIfFalse =>
      refine ends_bind (ends_pop (fun values v hv => ?_) fun _ => trivial)
      have hsize : f.base ≤ values.size := by
        rw [hv, Array.size_push] at hneeds
        exact Nat.le_of_succ_le_succ hneeds
      have hpopped : Rests f.base m { m with stack := values } := hrefl.pop hv hsize
      have hf' : ({ m with stack := values } : Machine).frames = rest.push f := hf
      split
      · exact rests_jump hf' hpopped _ n
      · exact ends_pure hpopped
  | call => exact absurd rfl hcall
  | ret => exact absurd rfl hret

end Exec

namespace Machine

variable {m m' : Machine} {rest : Array Frame} {f : Frame}

/-! ## Calls one above the other -/

theorem bases_push (hf : m.frames = rest.push f) :
    m.bases = rest.toList.map Frame.base ++ [f.base] := by
  unfold bases
  rw [hf]
  simp

/-- The innermost call has the highest base. -/
theorem Stacked.base_lt (h : m.Stacked) (hf : m.frames = rest.push f) {g : Frame} (hg : g ∈ rest) :
    g.base < f.base := by
  have hordered := h.ordered
  rw [bases_push hf, List.pairwise_append] at hordered
  exact hordered.2.2 _ (List.mem_map_of_mem (Array.mem_toList_iff.mpr hg)) _ (List.mem_singleton_self _)

theorem Stacked.base_le (h : m.Stacked) (hf : m.frames = rest.push f) {g : Frame}
    (hg : g ∈ m.frames) : g.base ≤ f.base := by
  rw [hf] at hg
  rcases Array.mem_push.mp hg with hg | rfl
  · exact Nat.le_of_lt (h.base_lt hf hg)
  · exact Nat.le_refl _

/-- What keeps the values of the callers keeps the calls apart. -/
theorem Stacked.rests (h : m.Stacked) (hf : m.frames = rest.push f) (hr : Rests f.base m m') :
    m'.Stacked where
  ordered := by
    rw [hr.bases]
    exact h.ordered
  height := by
    intro g hg
    have hmem : g.base ∈ m.bases := by
      rw [← hr.bases]
      exact List.mem_map_of_mem (Array.mem_toList_iff.mpr hg)
    obtain ⟨k, hk, hbase⟩ := List.mem_map.mp hmem
    have hle := h.base_le hf (Array.mem_toList_iff.mp hk)
    have hheight := hr.height
    omega

theorem Stacked.setPointer (h : m.Stacked) (hf : m.frames = rest.push f) (ip : Nat)
    (journal : Journal) : Stacked { m with frames := rest.push { f with ip }, journal } := by
  have hbase := h.height f (by rw [hf]; exact Array.mem_push_self)
  refine h.rests hf ⟨?_, hbase, rfl⟩
  rw [bases_push hf, bases_push (f := { f with ip }) rfl]

/-- A new call starts above the base of its caller. -/
theorem Stacked.pushFrame (h : m.Stacked) (hf : m.frames = rest.push f) {argc : Nat}
    (hargs : f.base + (argc + 1) ≤ m.stack.size) (function : Handle) :
    Stacked { m with frames := m.frames.push { function, base := m.stack.size - argc } } where
  ordered := by
    rw [bases_push (f := { function, base := m.stack.size - argc }) rfl, List.pairwise_append]
    refine ⟨h.ordered, List.pairwise_singleton _ _, ?_⟩
    intro b hb c hc
    obtain ⟨g, hg, hbase⟩ := List.mem_map.mp hb
    have hle := h.base_le hf (Array.mem_toList_iff.mp hg)
    have hc' : c = m.stack.size - argc := List.mem_singleton.mp hc
    omega
  height := by
    intro g hg
    rcases Array.mem_push.mp hg with hg | rfl
    · exact h.height g hg
    · exact Nat.sub_le _ _

/-- A return leaves a stack that ends at the base of the call that is over. -/
theorem Stacked.popFrame (h : m.Stacked) (hf : m.frames = rest.push f) {stack : Array Value}
    (hsize : stack.size = f.base) : Stacked { m with stack, frames := rest } where
  ordered := by
    have hordered := h.ordered
    rw [bases_push hf, List.pairwise_append] at hordered
    exact hordered.1
  height := by
    intro g hg
    have hlt := h.base_lt hf hg
    simp only
    omega

/-! ## Steps -/

/-- The calls of `m'` lie one above the other, and nothing below place `b` differs
from `m`. -/
def Apart (b : Nat) (m m' : Machine) : Prop :=
  m'.Stacked ∧ m'.stack.toList.take b = m.stack.toList.take b

theorem Stacked.apart (h : m.Stacked) (hf : m.frames = rest.push f) (hr : Rests f.base m m') :
    Apart (f.base - 1) m m' := by
  refine ⟨h.rests hf hr, ?_⟩
  have hbelow := congrArg (List.take (f.base - 1)) hr.below
  rw [List.take_take, List.take_take, Nat.min_eq_left (Nat.sub_le _ _)] at hbelow
  exact hbelow

theorem apart_call (h : m.Stacked) (hw : m.heap.WellFormed) (hf : m.frames = rest.push f) {n : Nat}
    (hargs : f.base + (n + 1) ≤ m.stack.size) :
    Exec.Ends (Exec.perform .call n) m (fun _ => Apart (f.base - 1) m) fun _ _ => True := by
  refine Exec.ends_bind (Exec.ends_peek (fun v _ _ => ?_) fun _ => trivial)
  refine Exec.ends_callValue (fun x g _ _ => ?_) (fun x g _ _ => ?_) (fun _ => trivial)
    fun _ _ _ => trivial
  · exact Exec.ends_callFunction (fun _ _ _ => ⟨h.pushFrame hf hargs x, rfl⟩) (fun _ => trivial)
      (fun _ => trivial) fun _ => trivial
  · exact (Exec.rests_callNative hw g hargs).mono (fun _ _ => h.apart hf) fun _ _ => id

theorem apart_ret (h : m.Stacked) (hf : m.frames = rest.push f)
    (hresult : f.base + 1 ≤ m.stack.size) :
    Exec.Ends Exec.ret m (fun _ => Apart (f.base - 1) m) fun _ _ => True := by
  refine Exec.ends_ret hf (fun _ => trivial) (fun _ _ _ _ => trivial) (fun _ _ _ _ _ => trivial)
    fun values v hv hbase _ => Exec.ends_push (fun _ => ?_) fun _ => trivial
  rw [hv, Array.size_push] at hresult
  have hcut : (values.take (f.base - 1)).size = f.base - 1 := by
    simp only [Array.take_eq_extract, Array.size_extract]
    omega
  refine ⟨h.popFrame hf (by rw [Array.size_push, hcut]; omega), ?_⟩
  -- the result goes to the place of the callee, which is the first one that may differ
  have htake : (values.take (f.base - 1)).toList = values.toList.take (f.base - 1) := by simp
  have hlength : f.base - 1 ≤ (values.take (f.base - 1)).toList.length := Nat.le_of_eq hcut.symm
  have hvalues : f.base - 1 ≤ values.toList.length := by
    simp only [Array.length_toList]
    omega
  simp only [Array.toList_push]
  rw [List.take_append_of_le_length hlength, htake, List.take_take, Nat.min_self, hv,
    Array.toList_push, List.take_append_of_le_length hvalues]

theorem apart_perform (h : m.Stacked) (hw : m.heap.WellFormed) (hf : m.frames = rest.push f)
    {op : Opcode} {n : Nat} (hown : op.needs n ≤ m.stack.size - f.base) :
    Exec.Ends (Exec.perform op n) m (fun _ => Apart (f.base - 1) m) fun _ _ => True := by
  have hbase := h.height f (by rw [hf]; exact Array.mem_push_self)
  have hneeds : f.base + op.needs n ≤ m.stack.size := by omega
  by_cases hcall : op = .call
  · subst hcall
    exact apart_call h hw hf hneeds
  · by_cases hret : op = .ret
    · subst hret
      exact apart_ret h hf hneeds
    · exact (Exec.rests_perform hf hbase hown hcall hret).mono (fun _ _ => h.apart hf) fun _ _ => id

/-- **An instruction that keeps to its own call keeps the calls apart.** -/
theorem Stacked.step (h : m.Stacked) (hw : m.heap.WellFormed) (hown : m.Owning) :
    Exec.Ends Exec.step m.recordInstruction
      (fun _ m' => ∀ f, m.frames.back? = some f → Apart (f.base - 1) m m') fun _ _ => True := by
  cases hn : m.next? with
  | none => exact ends_step_next_none hn fun _ _ _ => trivial
  | some next =>
      refine ends_step_next hn fun rest f ip journal hf => ?_
      have hback : m.frames.back? = some f := by rw [hf, Array.back?_push]
      have hperform := apart_perform
        (m := { m with frames := rest.push { f with ip }, journal }) (h.setPointer hf ip journal)
        hw rfl (hown _ _ f hn hback)
      refine hperform.mono (fun _ m' happart g hg => ?_) fun _ _ => id
      rw [hback] at hg
      rw [← Option.some.inj hg]
      exact happart

/-! ## Runs -/

/-- A run starts with one call, whose callee is the only value. -/
theorem stacked_enter (hw : m.heap.WellFormed) (function : Handle) :
    Exec.Ends (enter function) (m.begun function) (fun _ m' => m'.Stacked) fun _ _ => True := by
  refine Exec.ends_bind (Exec.ends_push (fun _ => ?_) fun _ => trivial)
  refine Exec.ends_bind (Exec.ends_callValue (fun x g _ _ => ?_) (fun x g _ _ => ?_)
    (fun _ => trivial) fun _ _ _ => trivial)
  · refine Exec.ends_callFunction (fun _ _ _ => Exec.ends_get ?_) (fun _ => trivial)
      (fun _ => trivial) fun _ => trivial
    rw [if_neg (by simp)]
    refine Exec.ends_pure ⟨List.pairwise_singleton _ _, fun f hf => ?_⟩
    rcases Array.mem_push.mp hf with hf | rfl
    · exact absurd hf (by simp [begun, record, resetStacks])
    · exact Nat.le_refl 1
  · refine Exec.ends_callNative_undisturbed (E := fun _ _ => True) ?_ g ?_ (fun m₁ v hu => ?_)
      fun _ _ => trivial
    · exact hw
    · exact Nat.one_pos
    refine Exec.ends_get ?_
    have hframes : m₁.frames = #[] := hu.frames
    rw [if_pos (by simp [hframes])]
    exact Exec.ends_bind (Exec.ends_pop (fun _ _ _ => Exec.ends_throw trivial) fun _ => trivial)

theorem InOwn.inRun {function : Handle} (hr : InOwn m function m') : InRun m function m' := by
  induction hr with
  | enter he => exact .enter he
  | step _ _ hs ih => exact .step ih hs

theorem InOwn.stacked {function : Handle} (hr : InOwn m function m') (h : m.Regular) :
    m'.Stacked := by
  induction hr with
  | enter he => exact (stacked_enter h.sound.wellFormed function).of_ok he
  | @step m₁ m₂ hr' hown hs ih =>
      have hw := (Regular.stable.inRun hr'.inRun h).sound.wellFormed
      obtain ⟨rest, f, hf⟩ := (hr'.inRun.contained h).frames_push
      have hback : m₁.frames.back? = some f := by rw [hf, Array.back?_push]
      exact ((ih.step hw hown).of_ok hs f hback).1

/-- A certificate sees to it that the values of the own call are enough. -/
theorem Running.owning (h : m.Running) : m.Owning := by
  intro op n f hn hback
  obtain ⟨rest, k, g, hf, hg, hdecode⟩ := Exec.next?_eq_some.mp hn
  have hk : k = f := by
    rw [hf, Array.back?_push] at hback
    exact Option.some.inj hback
  subst hk
  have hcalls := h.calls
  rw [hf, Array.toList_push, List.reverse_append] at hcalls
  generalize hheight : m.stack.size = height at hcalls
  cases hcalls with
  | @call _ _ g' depth d _ hg' hc hd =>
      obtain rfl : g = g' := Option.some.inj (hg.symm.trans hg')
      obtain ⟨op', n', hop, hneeds, _⟩ := hc.instruction k.ip d hd
      rw [hdecode] at hop
      obtain ⟨rfl, rfl⟩ := Decoded.instruction.inj hop
      omega

theorem InRun.inOwn {function : Handle} (hr : InRun m function m') (h : m.Ready function) :
    InOwn m function m' := by
  induction hr with
  | enter he => exact .enter he
  | step hr' hs ih => exact .step ih (hr'.running h).owning hs

end Machine

/-! ## The bottom of the stack -/

/-- A halt for corrupt bytecode. -/
def Halt.Corrupt : Halt → Prop
  | failed (.corruptBytecode _ _) => True
  | _ => False

/-- A halt because the stack has too few values. -/
def Halt.Underflow : Halt → Prop
  | failed (.corruptBytecode _ .stackUnderflow) => True
  | _ => False

/-- A halt of an instruction that needs `k` values in the machine `m`: it is for
corrupt bytecode if the whole stack has fewer, and for an underflow only then. -/
def Halt.Measured (m : Machine) (k : Nat) (halt : Halt) : Prop :=
  (m.stack.size < k → halt.Corrupt) ∧ (halt.Underflow → m.stack.size < k)

namespace Exec

open Machine

variable {m m' : Machine} {k : Nat}

theorem measured_short (h : m.stack.size < k) {offset : Nat} {cause : Corruption} :
    (Halt.failed (.corruptBytecode offset cause)).Measured m k :=
  ⟨fun _ => trivial, fun _ => h⟩

theorem measured_corrupt {offset : Nat} {cause : Corruption} (h : cause ≠ .stackUnderflow) :
    (Halt.failed (.corruptBytecode offset cause)).Measured m k := by
  refine ⟨fun _ => trivial, fun hunder => ?_⟩
  unfold Halt.Underflow at hunder
  split at hunder
  · rename_i heq
    cases heq
    exact absurd rfl h
  · exact hunder.elim

theorem measured_enough (hk : k ≤ m.stack.size) {halt : Halt} (h : ¬ halt.Underflow) :
    halt.Measured m k :=
  ⟨fun hshort => absurd hk (by omega), fun hunder => absurd hunder h⟩

/-- Whatever is pushed, there were values enough before. -/
theorem measured_push (hk : k ≤ m.stack.size) (v : Value) :
    Ends (push v) m' (fun _ _ => k ≤ m.stack.size) fun halt _ => halt.Measured m k :=
  ends_push (fun _ => hk) fun _ => measured_enough hk id

theorem measured_replace (hm : m'.stack = m.stack) (r : Value → Value) :
    Ends (do let v ← pop; push (r v)) m' (fun _ _ => 1 ≤ m.stack.size)
      fun halt _ => halt.Measured m 1 := by
  refine ends_bind (ends_pop (fun values v hv => ?_) fun hempty => ?_)
  · rw [hm] at hv
    exact measured_push (by rw [hv, Array.size_push]; omega) _
  · rw [hm] at hempty
    exact measured_short (by simp [hempty])

theorem measured_replaceTwo (hm : m'.stack = m.stack) (r : Value → Value → Value) :
    Ends (do let b ← pop; let a ← pop; push (r a b)) m' (fun _ _ => 2 ≤ m.stack.size)
      fun halt _ => halt.Measured m 2 := by
  refine ends_bind (ends_pop (fun values b hb => ?_) fun hempty => ?_)
  · rw [hm] at hb
    refine ends_bind (ends_pop (fun values' a ha => ?_) fun hempty => ?_)
    · have hvalues : values = values'.push a := ha
      exact measured_push (by rw [hb, hvalues, Array.size_push, Array.size_push]; omega) _
    · have hvalues : values = #[] := hempty
      exact measured_short (by simp [hb, hvalues])
  · rw [hm] at hempty
    exact measured_short (by simp [hempty])

theorem measured_binary (op : Value → Value → Except OperandError Value) :
    Ends (binary op) m (fun _ _ => 2 ≤ m.stack.size) fun halt _ => halt.Measured m 2 := by
  refine ends_bind (ends_peek (fun b _ _ => ?_) fun hshort => measured_short (by omega))
  refine ends_bind (ends_peek (fun a htwo _ => ?_) fun hshort => measured_short (by omega))
  refine ends_bind (ends_orMismatch (fun r _ => ?_) fun _ _ => measured_enough htwo id)
  exact measured_replaceTwo rfl fun _ _ => r

theorem measured_add :
    Ends add m (fun _ _ => 2 ≤ m.stack.size) fun halt _ => halt.Measured m 2 := by
  refine ends_bind (ends_peek (fun b _ _ => ?_) fun hshort => measured_short (by omega))
  refine ends_bind (ends_peek (fun a htwo _ => ends_get ?_) fun hshort => measured_short (by omega))
  split
  · rename_i joined _
    refine ends_bind (ends_intern (fun x m' hx => ?_) fun _ _ _ => measured_enough htwo id)
    have hm : (m.intern joined).2.stack = m.stack := rfl
    rw [hx] at hm
    exact measured_replaceTwo hm fun _ _ => .object x
  · refine ends_bind (ends_orMismatch (fun r _ => ?_) fun _ _ => measured_enough htwo id)
    exact measured_replaceTwo rfl fun _ _ => r

theorem measured_callValue (hw : m.heap.WellFormed) (callee : Value) {argc : Nat}
    (hargc : argc < m.stack.size) :
    Ends (callValue callee argc) m (fun _ _ => argc + 1 ≤ m.stack.size)
      fun halt _ => halt.Measured m (argc + 1) := by
  refine ends_callValue (fun x g _ _ => ?_) (fun x g _ _ => ?_)
    (fun _ => measured_enough hargc id) fun _ _ _ => measured_corrupt nofun
  · exact ends_callFunction (fun _ _ _ => hargc) (fun _ => measured_enough hargc id)
      (fun _ => measured_enough hargc id) fun _ => measured_enough hargc id
  · exact ends_callNative_undisturbed hw g hargc (fun _ _ _ => hargc)
      fun _ _ => measured_enough hargc id

theorem measured_jump {rest : Array Frame} {f : Frame} (hf : m'.frames = rest.push f)
    (hk : k ≤ m.stack.size) (op : Opcode) (n : Nat) :
    Ends (jump op n) m' (fun _ _ => k ≤ m.stack.size) fun halt _ => halt.Measured m k :=
  ends_jump hf (fun _ _ _ _ _ => hk) (fun _ => measured_corrupt nofun) fun _ _ _ => measured_corrupt nofun

/-- **An instruction is measured against the whole stack.** If it needs more values it
ends in corrupt bytecode, and otherwise it is not stopped for want of values. -/
theorem measured_perform (hw : m.heap.WellFormed) {rest : Array Frame} {f : Frame}
    (hf : m.frames = rest.push f) (op : Opcode) (n : Nat) :
    Ends (perform op n) m (fun _ _ => op.needs n ≤ m.stack.size)
      fun halt _ => halt.Measured m (op.needs n) := by
  have hempty : m.stack = #[] → m.stack.size < 1 := by
    intro hnone
    simp [hnone]
  have hpopped : ∀ {values : Array Value} {v : Value}, m.stack = values.push v →
      1 ≤ m.stack.size := by
    intro values v hv
    rw [hv, Array.size_push]
    omega
  cases op with
  | constant =>
      exact ends_bind (ends_constant hf (fun _ v _ _ => measured_push (Nat.zero_le _) v)
        (fun _ => measured_corrupt nofun) fun _ _ _ => measured_corrupt nofun)
  | pushNil => exact measured_push (Nat.zero_le _) _
  | pushTrue => exact measured_push (Nat.zero_le _) _
  | pushFalse => exact measured_push (Nat.zero_le _) _
  | pop =>
      exact ends_bind (ends_pop (fun _ _ hv => ends_pure (hpopped hv)) fun hnone =>
        measured_short (hempty hnone))
  | getLocal =>
      refine ends_bind (ends_localSlot hf (fun _ => ?_) fun _ => measured_corrupt nofun)
      exact ends_bind (ends_getSlot (fun v _ => measured_push (Nat.zero_le _) v) fun _ =>
        measured_enough (Nat.zero_le _) id)
  | setLocal =>
      -- a slot that exists is at or below the top, so there is a value to be stored
      refine ends_bind (ends_localSlot hf (fun hslot => ?_) fun _ => measured_corrupt nofun)
      refine ends_bind (ends_peek (fun v _ _ => ?_) fun hshort => absurd hslot (by omega))
      exact ends_setSlot (fun _ => Nat.zero_le _) fun _ => measured_enough (Nat.zero_le _) id
  | getGlobal =>
      refine ends_name_bind hf (fun _ _ => measured_corrupt) fun key => ends_get ?_
      split
      · exact measured_push (Nat.zero_le _) _
      · exact ends_undefined (measured_enough (Nat.zero_le _) id)
  | defineGlobal =>
      refine ends_name_bind hf (fun _ _ => measured_corrupt) fun key => ?_
      refine ends_bind (ends_peek (fun v hone _ => ?_) fun hshort =>
        measured_short (Nat.lt_succ_of_le hshort))
      exact ends_bind (ends_setGlobal (ends_bind (ends_pop (fun _ _ _ => ends_pure hone)
        fun hnone => measured_short (hempty hnone))))
  | setGlobal =>
      refine ends_name_bind hf (fun _ _ => measured_corrupt) fun key => ?_
      refine ends_bind (ends_peek (fun v hone _ => ends_get ?_) fun hshort =>
        measured_short (Nat.lt_succ_of_le hshort))
      split
      · exact ends_setGlobal hone
      · exact ends_undefined (measured_enough hone id)
  | equal => exact measured_replaceTwo rfl _
  | notEqual => exact measured_replaceTwo rfl _
  | greater => exact measured_binary _
  | greaterEqual => exact measured_binary _
  | less => exact measured_binary _
  | lessEqual => exact measured_binary _
  | add => exact measured_add
  | subtract => exact measured_binary _
  | multiply => exact measured_binary _
  | divide => exact measured_binary _
  | not => exact measured_replace rfl Value.not
  | negate =>
      refine ends_bind (ends_peek (fun v hone _ => ?_) fun hshort =>
        measured_short (Nat.lt_succ_of_le hshort))
      refine ends_bind (ends_orMismatch (fun r _ => ?_) fun _ _ => measured_enough hone id)
      exact measured_replace rfl fun _ => r
  | print =>
      refine ends_bind (ends_pop (fun _ _ hv => ?_) fun hnone => measured_short (hempty hnone))
      exact ends_print (fun _ _ => hpopped hv) fun _ _ => measured_enough (hpopped hv) id
  | jump => exact measured_jump hf (Nat.zero_le _) _ n
  | loop => exact measured_jump hf (Nat.zero_le _) _ n
  | jumpIfFalse =>
      refine ends_bind (ends_pop (fun values v hv => ?_) fun hnone => measured_short (hempty hnone))
      have hf' : ({ m with stack := values } : Machine).frames = rest.push f := hf
      split
      · exact measured_jump hf' (hpopped hv) _ n
      · exact ends_pure (hpopped hv)
  | call =>
      exact ends_bind (ends_peek (fun v hlt _ => measured_callValue hw v hlt) fun hshort =>
        measured_short (Nat.lt_succ_of_le hshort))
  | ret =>
      exact ends_ret hf (fun hnone => measured_short (hempty hnone))
        (fun _ _ hv _ => measured_enough (hpopped hv) id)
        (fun _ _ hv _ _ => measured_enough (hpopped hv) id)
        fun _ v hv _ _ => measured_push (hpopped hv) v

end Exec

theorem Halt.Corrupt.eq {halt : Halt} (h : halt.Corrupt) :
    ∃ offset cause, halt = .failed (.corruptBytecode offset cause) := by
  match halt, h with
  | .failed (.corruptBytecode offset cause), _ => exact ⟨offset, cause, rfl⟩

namespace Machine

variable {m : Machine} {op : Opcode} {n : Nat}

theorem measured_step (hw : m.heap.WellFormed) (hn : m.next? = some (op, n)) :
    Exec.Ends Exec.step m.recordInstruction (fun _ _ => op.needs n ≤ m.stack.size)
      fun halt _ => halt.Measured m (op.needs n) := by
  refine ends_step_next hn fun rest f ip journal _ => ?_
  exact Exec.measured_perform (m := { m with frames := rest.push { f with ip }, journal }) hw rfl
    op n

/-- An instruction that the whole stack cannot serve ends in corrupt bytecode. -/
theorem step_short (hw : m.heap.WellFormed) (hn : m.next? = some (op, n))
    (hshort : m.stack.size < op.needs n) : ∃ offset cause m',
      Exec.step m.recordInstruction = .error (.failed (.corruptBytecode offset cause)) m' := by
  have hmeasured := measured_step hw hn
  cases hs : Exec.step m.recordInstruction with
  | ok _ m' =>
      have henough := hmeasured.of_ok hs
      omega
  | error halt m' =>
      obtain ⟨offset, cause, rfl⟩ := ((hmeasured.of_error hs).1 hshort).eq
      exact ⟨offset, cause, m', rfl⟩

/-- **Calls that keep to their values are apart.** In every run of any bytecode, up to
the first instruction that does not find what it needs above the base of its call, the
calls lie one above the other, and an instruction that does find it changes nothing
below its callee. Runs of certified functions have no other instructions. An
instruction that needs more than the whole stack has ends in corrupt bytecode, and
only such an instruction is said to underflow. -/
theorem calls_apart_while_owning {m m₁ : Machine} {function : Handle} {c : HostCall} (hi : m.Idle)
    (hc : c.Runs m m₁ function) :
    (∀ m', InOwn m₁ function m' → m'.Stacked ∧
      ∀ f m'', m'.frames.back? = some f → m'.Owning →
        Exec.step m'.recordInstruction = .ok () m'' →
        m''.stack.toList.take (f.base - 1) = m'.stack.toList.take (f.base - 1)) ∧
    (m₁.Linked → m₁.heap.Verified → m₁.heap.contains function → m₁.TruthfulRun function →
      ∀ m', InRun m₁ function m' → InOwn m₁ function m' ∧ m'.Owning) ∧
    ∀ m' op n, InRun m₁ function m' → m'.next? = some (op, n) →
      (m'.stack.size < op.needs n → ∃ offset cause m'',
        Exec.step m'.recordInstruction = .error (.failed (.corruptBytecode offset cause)) m'') ∧
      ∀ offset m'', Exec.step m'.recordInstruction =
        .error (.failed (.corruptBytecode offset .stackUnderflow)) m'' →
        m'.stack.size < op.needs n := by
  have hregular := hi.regular.runs hc
  have hw : ∀ m', InRun m₁ function m' → m'.heap.WellFormed := fun m' hr =>
    (Regular.stable.inRun hr hregular).sound.wellFormed
  refine ⟨fun m' hr => ?_, fun hl hv hf ht m' hr => ?_, fun m' op n hr hn => ?_⟩
  · have hstacked := hr.stacked hregular
    refine ⟨hstacked, fun f m'' hback hown hs => ?_⟩
    exact ((hstacked.step (hw m' hr.inRun) hown).of_ok hs f hback).2
  · have hready : m₁.Ready function := ⟨hl.begun_safe hregular function, hv, hf, ht⟩
    exact ⟨hr.inOwn hready, (hr.running hready).owning⟩
  · refine ⟨step_short (hw m' hr) hn, fun offset m'' hs => ?_⟩
    exact ((measured_step (hw m' hr) hn).of_error hs).2 trivial

/-- A machine with a function that takes off its own callee and one value more, and
then returns. -/
def grabbing : Machine :=
  HostCall.apply (HostCall.apply (fresh { registerBuiltins := false })
    (.allocateFunction none 0)) (.editFunction ⟨0, 0⟩ fun f =>
      { f with chunk := Chunk.copy { code := #[4, 4, 2, 27], lines := #[1, 1, 1, 1] } })

theorem grabbing_idle : grabbing.Idle :=
  .call _ (.call _ (fresh_idle rfl rfl) nofun) nofun

/-- A script with one local, which it reads after a call of that function. -/
def grabbed : Chunk := Chunk.copy
  { code := #[3, 0, 0, 26, 0, 5, 0, 27]
    lines := #[1, 1, 1, 1, 1, 1, 1, 1]
    constants := #[.object ⟨0, 0⟩] }

/-- The machine in which the script is run. -/
def grabbedMachine : Machine :=
  (grabbing.allocate (.function { chunk := grabbed })).2

theorem grabbed_runs : (HostCall.run 9 grabbed).Runs grabbing grabbedMachine ⟨1, 0⟩ :=
  rfl

/-- The function gets below its base and the run goes on: the script finds the result
of the call where it had put its local. -/
theorem caller_value_taken :
    grabbing.Idle ∧ (HostCall.run 9 grabbed).Runs grabbing grabbedMachine ⟨1, 0⟩ ∧
      (∃ m', InRun grabbedMachine ⟨1, 0⟩ m' ∧ ∃ f ∈ m'.frames, m'.stack.size < f.base) ∧
      (HostCall.run 9 grabbed).outcome? grabbing = some (.finished (.bool true)) := by
  have hr : InRun grabbedMachine ⟨1, 0⟩ _ :=
    .step (.step (.step (.step (.enter rfl) rfl) rfl) rfl) rfl
  refine ⟨grabbing_idle, grabbed_runs, ⟨_, hr, ⟨⟨0, 0⟩, 1, 3⟩, ?_, ?_⟩, by decide +kernel⟩
  · decide +kernel
  · decide +kernel

theorem owning_of {f : Frame} (hn : m.next? = some (op, n)) (hf : m.frames.back? = some f)
    (hneeds : op.needs n ≤ m.stack.size - f.base) : m.Owning := by
  intro op' n' f' hn' hf'
  obtain ⟨rfl, rfl⟩ := Prod.mk.inj (Option.some.inj (hn.symm.trans hn'))
  obtain rfl := Option.some.inj (hf.symm.trans hf')
  exact hneeds

/-- The calls of the script and of the function are apart before the function takes
anything off. -/
theorem calls_apart_while_owning_grabbing :
    grabbing.Idle ∧ (HostCall.run 9 grabbed).Runs grabbing grabbedMachine ⟨1, 0⟩ ∧
      ∃ m', InOwn grabbedMachine ⟨1, 0⟩ m' ∧ m'.bases = [1, 3] ∧ m'.Stacked ∧ ¬ m'.Owning := by
  have hr : InOwn grabbedMachine ⟨1, 0⟩ _ :=
    .step (.step (.step (.enter rfl) (owning_of rfl rfl (by decide +kernel)) rfl)
      (owning_of rfl rfl (by decide +kernel)) rfl) (owning_of rfl rfl (by decide +kernel)) rfl
  refine ⟨grabbing_idle, grabbed_runs, _, hr, by decide +kernel,
    ((calls_apart_while_owning grabbing_idle grabbed_runs).1 _ hr).1, fun hown => ?_⟩
  exact absurd (hown .pop 0 ⟨⟨0, 0⟩, 0, 3⟩ rfl rfl) (by decide +kernel)

end Machine

end StackMachine
