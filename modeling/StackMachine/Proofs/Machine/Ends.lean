import StackMachine.Machine.Run

/-!
# How an action ends

`Ends x m Q E` says that the action `x`, started in `m`, ends with an answer and
a machine as `Q` says, or halts with a reason and a machine as `E` says. One rule
for each action gives the exact machines it can end in, so that a property of
instructions is proved by following the instruction through these rules and
never by unfolding the actions it is made of.

A rule has one premise for each way the action can end, and the premise may use
the test that leads there.
-/

namespace StackMachine

namespace Exec

variable {α β : Type} {m : Machine}

def Ends (x : Exec α) (m : Machine) (Q : α → Machine → Prop) (E : Halt → Machine → Prop) : Prop :=
  match x m with
  | .ok a m' => Q a m'
  | .error halt m' => E halt m'

section

variable {Q Q' : α → Machine → Prop} {R : β → Machine → Prop} {E E' : Halt → Machine → Prop}

theorem Ends.mono {x : Exec α} (h : Ends x m Q E) (hQ : ∀ a m', Q a m' → Q' a m')
    (hE : ∀ halt m', E halt m' → E' halt m') : Ends x m Q' E' := by
  unfold Ends at h ⊢
  split
  · rename_i hx; rw [hx] at h; exact hQ _ _ h
  · rename_i hx; rw [hx] at h; exact hE _ _ h

theorem Ends.of_ok {x : Exec α} {a : α} {m' : Machine} (h : Ends x m Q E) (hx : x m = .ok a m') :
    Q a m' := by
  unfold Ends at h; rw [hx] at h; exact h

theorem Ends.of_error {x : Exec α} {halt : Halt} {m' : Machine} (h : Ends x m Q E)
    (hx : x m = .error halt m') : E halt m' := by
  unfold Ends at h; rw [hx] at h; exact h

theorem Ends.total {x : Exec α} (h : Ends x m Q fun _ _ => False) :
    ∃ a m', x m = .ok a m' ∧ Q a m' := by
  cases hx : x m with
  | ok a m' => exact ⟨a, m', rfl, h.of_ok hx⟩
  | error halt m' => exact (h.of_error hx).elim

theorem Ends.fails {x : Exec α} (h : Ends x m (fun _ _ => False) E) :
    ∃ halt m', x m = .error halt m' ∧ E halt m' := by
  cases hx : x m with
  | ok a m' => exact (h.of_ok hx).elim
  | error halt m' => exact ⟨halt, m', rfl, h.of_error hx⟩

theorem Ends.and {x : Exec α} (h : Ends x m Q E) (h' : Ends x m Q' E') :
    Ends x m (fun a m' => Q a m' ∧ Q' a m') fun halt m' => E halt m' ∧ E' halt m' := by
  unfold Ends at *
  split
  · rename_i hx
    rw [hx] at h h'
    exact ⟨h, h'⟩
  · rename_i hx
    rw [hx] at h h'
    exact ⟨h, h'⟩

theorem ends_of_ok {x : Exec α} {a : α} {m' : Machine} (hx : x m = .ok a m') (h : Q a m') :
    Ends x m Q E := by
  unfold Ends; rw [hx]; exact h

theorem bind_of_ok {x : Exec β} {f : β → Exec α} {m' : Machine} {b : β} (h : x m = .ok b m') :
    (x >>= f) m = f b m' := by
  show EStateM.bind x f m = _
  unfold EStateM.bind
  rw [h]

theorem bind_of_error {x : Exec β} {f : β → Exec α} {m' : Machine} {halt : Halt}
    (h : x m = .error halt m') : (x >>= f) m = .error halt m' := by
  show EStateM.bind x f m = _
  unfold EStateM.bind
  rw [h]

theorem ends_pure {a : α} (h : Q a m) : Ends (pure a) m Q E := h

theorem ends_bind {x : Exec β} {f : β → Exec α}
    (h : Ends x m (fun b m' => Ends (f b) m' Q E) E) : Ends (x >>= f) m Q E := by
  unfold Ends at h
  show Ends (EStateM.bind x f) m Q E
  unfold Ends EStateM.bind
  cases hx : x m with
  | ok b m' => rw [hx] at h; exact h
  | error halt m' => rw [hx] at h; exact h

theorem Ends.of_bind {x : Exec β} {f : β → Exec α} (h : Ends (x >>= f) m Q E) :
    Ends x m (fun b m' => Ends (f b) m' Q E) E := by
  cases hx : x m with
  | ok b m' =>
      refine ends_of_ok hx ?_
      unfold Ends at h ⊢
      rw [bind_of_ok hx] at h
      exact h
  | error halt m' =>
      have herr := h.of_error (bind_of_error hx)
      unfold Ends
      rw [hx]
      exact herr

theorem ends_get {f : Machine → Exec α} (h : Ends (f m) m Q E) : Ends (get >>= f) m Q E := h

theorem ends_modify {f : Machine → Machine} {Q : PUnit → Machine → Prop} (h : Q ⟨⟩ (f m)) :
    Ends (modify f) m Q E := h

theorem ends_throw {halt : Halt} (h : E halt m) : Ends (throw halt : Exec α) m Q E := h

theorem ends_crash (h : E .crashed m) : Ends (crash : Exec α) m Q E := h

theorem ends_fail {fault : RuntimeFault} (h : E (.failed (.runtime (m.runtimeError fault))) m) :
    Ends (fail fault : Exec α) m Q E := h

theorem ends_corruptAt {offset : Nat} {cause : Corruption}
    (h : E (.failed (.corruptBytecode offset cause)) m) :
    Ends (corruptAt offset cause : Exec α) m Q E := h

theorem ends_corrupt {cause : Corruption}
    (h : E (.failed (.corruptBytecode m.lastOffset cause)) m) :
    Ends (corrupt cause : Exec α) m Q E := h

theorem ends_orMismatch {r : Except OperandError α} (hok : ∀ a, r = .ok a → Q a m)
    (herr : ∀ e, r = .error e →
      E (.failed (.runtime (m.runtimeError (.typeMismatch e.message)))) m) :
    Ends (orMismatch r) m Q E := by
  cases r with
  | ok a => exact hok a rfl
  | error e => exact herr e rfl

end

variable {E : Halt → Machine → Prop}

/-! ## The stack -/

theorem ends_push {v : Value} {Q : Unit → Machine → Prop}
    (hok : m.stack.size < m.config.maxStack → Q () { m with stack := m.stack.push v })
    (herr : ¬ m.stack.size < m.config.maxStack →
      E (.failed (.runtime (m.runtimeError .stackOverflow))) m) :
    Ends (push v) m Q E := by
  unfold Ends push
  by_cases h : m.stack.size < m.config.maxStack
  · rw [if_pos h]; exact hok h
  · rw [if_neg h]; exact herr h

theorem ends_pop {Q : Value → Machine → Prop}
    (hok : ∀ (rest : Array Value) v, m.stack = rest.push v → Q v { m with stack := rest })
    (herr : m.stack = #[] → E (.failed (.corruptBytecode m.lastOffset .stackUnderflow)) m) :
    Ends pop m Q E := by
  unfold Ends pop
  cases hb : m.stack.back? with
  | some v =>
      obtain ⟨rest, hrest⟩ := Array.back?_eq_some_iff.mp hb
      have := hok rest v hrest
      simpa [hrest] using this
  | none => exact herr (Array.back?_eq_none_iff.mp hb)

theorem ends_peek {distance : Nat} {Q : Value → Machine → Prop}
    (hok : ∀ v, distance < m.stack.size →
      m.stack[m.stack.size - (distance + 1)]? = some v → Q v m)
    (herr : m.stack.size ≤ distance →
      E (.failed (.corruptBytecode m.lastOffset .stackUnderflow)) m) :
    Ends (peek distance) m Q E := by
  unfold Ends peek
  by_cases h : m.stack.size < distance + 1
  · rw [if_pos h]; exact herr (by omega)
  · rw [if_neg h]
    have hlt : m.stack.size - (distance + 1) < m.stack.size := by omega
    rw [Array.getElem?_eq_getElem hlt]
    exact hok _ (by omega) (Array.getElem?_eq_getElem hlt)

theorem ends_pop_top {rest : Array Value} {v : Value} {Q : Value → Machine → Prop}
    (hs : m.stack = rest.push v) (h : Q v { m with stack := rest }) : Ends pop m Q E := by
  unfold Ends pop
  rw [hs, Array.back?_push, Array.pop_push]
  exact h

theorem ends_peek_some {distance : Nat} {v : Value} {Q : Value → Machine → Prop}
    (hd : distance < m.stack.size) (hv : m.stack[m.stack.size - (distance + 1)]? = some v)
    (h : Q v m) : Ends (peek distance) m Q E := by
  unfold Ends peek
  rw [if_neg (by omega), hv]
  exact h

theorem ends_truncate {size : Nat} {Q : Unit → Machine → Prop}
    (h : Q () { m with stack := m.stack.take size }) : Ends (truncate size) m Q E := h

theorem ends_getSlot {slot : Nat} {Q : Value → Machine → Prop}
    (hok : ∀ v, m.stack[slot]? = some v → Q v m) (herr : m.stack.size ≤ slot → E .crashed m) :
    Ends (getSlot slot) m Q E := by
  unfold Ends getSlot
  cases hs : m.stack[slot]? with
  | some v => exact hok v hs
  | none => exact herr (Array.getElem?_eq_none_iff.mp hs)

theorem ends_setSlot {slot : Nat} {v : Value} {Q : Unit → Machine → Prop}
    (hok : slot < m.stack.size → Q () { m with stack := m.stack.setIfInBounds slot v })
    (herr : m.stack.size ≤ slot → E .crashed m) : Ends (setSlot slot v) m Q E := by
  unfold Ends setSlot
  by_cases h : slot < m.stack.size
  · rw [if_pos h]; exact hok h
  · rw [if_neg h]; exact herr (by omega)

/-! ## The innermost call -/

theorem ends_frame {rest : Array Frame} {f : Frame} {Q : Frame → Machine → Prop}
    (hf : m.frames = rest.push f) (h : Q f m) : Ends frame m Q E := by
  unfold Ends frame
  rw [hf, Array.back?_push]
  exact h

/-- Moving the pointer of the innermost call leaves the other calls alone. -/
theorem modify_last {frames rest : Array Frame} {f : Frame} (h : frames = Array.push rest f)
    (ip : Nat) :
    frames.modify (frames.size - 1) ({ · with ip }) = rest.push { f with ip } := by
  subst h
  apply Array.ext_getElem?
  intro i
  rw [Array.getElem?_modify, Array.getElem?_push, Array.getElem?_push, Array.size_push,
    Nat.add_sub_cancel]
  -- the last place of `rest.push f` is `rest.size`
  by_cases hi : i = rest.size
  · simp [hi]
  · simp [hi, Ne.symm hi]

section

variable {rest : Array Frame} {f : Frame}

theorem ends_setPointer {ip : Nat} {Q : Unit → Machine → Prop} (hf : m.frames = rest.push f)
    (h : Q () { m with frames := rest.push { f with ip } }) : Ends (setPointer ip) m Q E := by
  unfold Ends setPointer
  rw [modify_last hf]
  exact h

theorem ends_function {Q : BytecodeFunction → Machine → Prop} (hf : m.frames = rest.push f)
    (hok : ∀ g, m.heap.function? f.function = some g → Q g m)
    (herr : m.heap.function? f.function = none →
      E (.failed (.corruptBytecode f.ip .noFunction)) m) :
    Ends function m Q E := by
  refine ends_bind (ends_frame hf (ends_get ?_))
  split
  · rename_i g hg; exact ends_pure (hok g hg)
  · rename_i hg; exact ends_corruptAt (herr hg)

/-- Without a call there is nothing to be read. -/
theorem ends_fetch_noFrame {Q : Opcode × Nat → Machine → Prop} (hf : m.frames = #[])
    (herr : E (.failed (.corruptBytecode 0 .noFrame)) m) : Ends fetch m Q E := by
  refine ends_bind ?_
  unfold Ends frame
  rw [hf]
  exact herr

theorem ends_fetch {Q : Opcode × Nat → Machine → Prop} (hf : m.frames = rest.push f)
    (hok : ∀ g op n, m.heap.function? f.function = some g →
      g.chunk.decode f.ip = .instruction op n →
      Q (op, n) { m with frames := rest.push { f with ip := f.ip + 1 + op.operandWidth } })
    (hdead : m.heap.function? f.function = none →
      E (.failed (.corruptBytecode f.ip .pointerOutside)) m)
    (hend : ∀ g, m.heap.function? f.function = some g → g.chunk.decode f.ip = .pastEnd →
      E (.failed (.corruptBytecode f.ip .pointerOutside)) m)
    (hunknown : ∀ g b, m.heap.function? f.function = some g →
      g.chunk.decode f.ip = .unknown b →
      E (.failed (.corruptBytecode f.ip (.unknownOpcode b))) m)
    (htruncated : ∀ g op, m.heap.function? f.function = some g →
      g.chunk.decode f.ip = .truncated op →
      E (.failed (.corruptBytecode g.chunk.size .pointerOutside)) m) :
    Ends fetch m Q E := by
  refine ends_bind (ends_frame hf (ends_get ?_))
  split
  · rename_i hg; exact ends_corruptAt (hdead hg)
  · rename_i g hg
    split
    · rename_i hd; exact ends_corruptAt (hend g hg hd)
    · rename_i b hd; exact ends_corruptAt (hunknown g b hg hd)
    · rename_i op hd; exact ends_corruptAt (htruncated g op hg hd)
    · rename_i op n hd
      exact ends_bind (ends_setPointer hf (ends_pure (hok g op n hg hd)))

theorem ends_constant {index : Nat} {Q : Value → Machine → Prop} (hf : m.frames = rest.push f)
    (hok : ∀ g v, m.heap.function? f.function = some g → g.chunk.constant? index = some v → Q v m)
    (hdead : m.heap.function? f.function = none →
      E (.failed (.corruptBytecode f.ip .noFunction)) m)
    (herr : ∀ g, m.heap.function? f.function = some g → g.chunk.constant? index = none →
      E (.failed (.corruptBytecode m.lastOffset (.constantOutOfRange index))) m) :
    Ends (constant index) m Q E := by
  refine ends_bind (ends_function hf (fun g hg => ?_) hdead)
  split
  · rename_i v hv; exact ends_pure (hok g v hg hv)
  · rename_i hv; exact ends_corrupt (herr g hg hv)

theorem ends_name {index : Nat} {Q : Handle → Machine → Prop} (hf : m.frames = rest.push f)
    (hok : ∀ g x s, m.heap.function? f.function = some g →
      g.chunk.constant? index = some (.object x) → m.heap.string? x = some s → Q x m)
    (hdead : m.heap.function? f.function = none →
      E (.failed (.corruptBytecode f.ip .noFunction)) m)
    (hrange : ∀ g, m.heap.function? f.function = some g → g.chunk.constant? index = none →
      E (.failed (.corruptBytecode m.lastOffset (.constantOutOfRange index))) m)
    (hkind : ∀ g v, m.heap.function? f.function = some g → g.chunk.constant? index = some v →
      (∀ x s, v = .object x → m.heap.string? x ≠ some s) →
      E (.failed (.corruptBytecode m.lastOffset .nameNotString)) m) :
    Ends (name index) m Q E := by
  refine ends_bind (ends_constant hf (fun g v hg hv => ?_) hdead hrange)
  split
  · rename_i x
    refine ends_get ?_
    cases hs : m.heap.string? x with
    | some s => exact ends_pure (hok g x s hg hv hs)
    | none =>
        refine ends_corrupt (hkind g _ hg hv fun y s hy => ?_)
        rw [← Value.object.inj hy, hs]
        simp
  · rename_i hn
    exact ends_corrupt (hkind g v hg hv fun x _ hx => absurd hx (hn x))

/-- What comes after a name, where it does not matter which string is the name or why
there is none. -/
theorem ends_name_bind {α : Type} {index : Nat} {k : Handle → Exec α} {Q : α → Machine → Prop}
    (hf : m.frames = rest.push f)
    (hcorrupt : ∀ offset cause, cause ≠ .stackUnderflow →
      E (.failed (.corruptBytecode offset cause)) m)
    (hk : ∀ x, Ends (k x) m Q E) : Ends (name index >>= k) m Q E :=
  ends_bind (ends_name hf (fun _ x _ _ _ _ => hk x) (fun _ => hcorrupt _ _ nofun)
    (fun _ _ _ => hcorrupt _ _ nofun) fun _ _ _ _ _ => hcorrupt _ _ nofun)

theorem ends_localSlot {n : Nat} {Q : Nat → Machine → Prop} (hf : m.frames = rest.push f)
    (hok : f.base + n < m.stack.size → Q (f.base + n) m)
    (herr : m.stack.size ≤ f.base + n →
      E (.failed (.corruptBytecode m.lastOffset (.localOutOfRange n))) m) :
    Ends (localSlot n) m Q E := by
  refine ends_bind (ends_frame hf (ends_get ?_))
  split
  · rename_i h; exact ends_pure (hok h)
  · rename_i h; exact ends_corrupt (herr (by omega))

theorem ends_jump {op : Opcode} {distance : Nat} {Q : Unit → Machine → Prop}
    (hf : m.frames = rest.push f)
    (hok : ∀ g target, m.heap.function? f.function = some g →
      Chunk.jumpTarget op f.ip distance = Int.ofNat target → target ≤ g.chunk.size →
      Q () { m with frames := rest.push { f with ip := target } })
    (hdead : m.heap.function? f.function = none →
      E (.failed (.corruptBytecode f.ip .noFunction)) m)
    (herr : ∀ g, m.heap.function? f.function = some g →
      ¬ (0 ≤ Chunk.jumpTarget op f.ip distance ∧
        Chunk.jumpTarget op f.ip distance ≤ g.chunk.size) →
      E (.failed (.corruptBytecode m.lastOffset .jumpOutside)) m) :
    Ends (jump op distance) m Q E := by
  refine ends_bind (ends_frame hf (ends_bind (ends_function hf (fun g hg => ?_) hdead)))
  dsimp only
  split
  · rename_i h
    obtain ⟨target, ht⟩ := Int.eq_ofNat_of_zero_le h.1
    refine ends_setPointer hf (hok g _ hg ?_ ?_)
    · rw [ht]; rfl
    · rw [ht] at h ⊢; exact Int.ofNat_le.mp h.2
  · rename_i h; exact ends_corrupt (herr g hg h)

end

/-! ## Globals, output and strings -/

theorem ends_undefined {α : Type} {name : Handle} {Q : α → Machine → Prop}
    (h : E (.failed (.runtime (m.runtimeError
      (.undefinedVariable ((m.heap.string? name).getD ""))))) m) :
    Ends (undefined name : Exec α) m Q E := h

theorem ends_setGlobal {name : Handle} {v : Value} {Q : Unit → Machine → Prop}
    (h : Q () { m with globals := m.globals.insert name v }) : Ends (setGlobal name v) m Q E := h

theorem ends_print {v : Value} {Q : Unit → Machine → Prop}
    (hok : ∀ output, m.output.writeLine (m.display v) = .ok output → Q () { m with output })
    (herr : ∀ text, m.output.writeLine (m.display v) = .error text →
      E (.failed (.output text)) m) : Ends (print v) m Q E := by
  unfold Ends print
  cases ho : m.output.writeLine (m.display v) with
  | ok output => exact hok output ho
  | error text => exact herr text ho

theorem ends_intern {text : String} {Q : Handle → Machine → Prop}
    (hok : ∀ x m', m.intern text = (.ok x, m') → Q x m')
    (herr : ∀ e m', m.intern text = (.error e, m') → E (.failed (.outOfMemory e)) m') :
    Ends (intern text) m Q E := by
  unfold Ends intern
  cases hi : m.intern text with
  | mk answer m' =>
      cases answer with
      | ok x => exact hok x m' hi
      | error e => exact herr e m' hi

/-! ## Calls -/

theorem ends_checkArity {expected got : Nat} {Q : Unit → Machine → Prop}
    (hok : got = expected → Q () m)
    (herr : got ≠ expected →
      E (.failed (.runtime (m.runtimeError (.arityMismatch expected got)))) m) :
    Ends (checkArity expected got) m Q E := by
  unfold checkArity
  split
  · rename_i h; exact ends_pure (hok h)
  · rename_i h; exact ends_fail (herr h)

theorem ends_argumentStart {argc : Nat} {Q : Nat → Machine → Prop}
    (hok : argc ≤ m.stack.size → Q (m.stack.size - argc) m)
    (hcrash : m.stack.size < argc → E .crashed m) : Ends (argumentStart argc) m Q E := by
  refine ends_get ?_
  dsimp only
  split
  · rename_i h; exact ends_pure (hok h)
  · rename_i h; exact ends_crash (hcrash (by omega))

theorem ends_callFunction {function : Handle} {arity argc : Nat} {Q : Unit → Machine → Prop}
    (hok : argc = arity → m.frames.size < m.config.maxFrames → argc ≤ m.stack.size →
      Q () { m with frames := m.frames.push { function, base := m.stack.size - argc } })
    (harity : argc ≠ arity →
      E (.failed (.runtime (m.runtimeError (.arityMismatch arity argc)))) m)
    (hfull : ¬ m.frames.size < m.config.maxFrames →
      E (.failed (.runtime (m.runtimeError .stackOverflow))) m)
    (hcrash : m.stack.size < argc → E .crashed m) :
    Ends (callFunction function arity argc) m Q E := by
  refine ends_bind (ends_checkArity (fun ha => ends_get ?_) harity)
  split
  · rename_i hroom
    exact ends_bind (ends_argumentStart (fun hargs => hok ha hroom hargs) hcrash)
  · rename_i hroom; exact ends_fail (hfull hroom)

theorem ends_callNative {native : NativeFunction} {argc : Nat} {Q : Unit → Machine → Prop}
    (hrun : argc = native.arity.toNat → argc ≤ m.stack.size →
      Ends (runPrimitive (native.body (m.stack.extract (m.stack.size - argc)))) m
        (fun result m' =>
          match result with
          | .error text => E (.failed (.runtime (m'.runtimeError (.native text)))) m'
          | .ok v =>
            if m.stack.size - argc = 0 then E .crashed m'
            else Ends (push v) { m' with stack := m'.stack.take (m.stack.size - argc - 1) } Q E)
        E)
    (harity : argc ≠ native.arity.toNat →
      E (.failed (.runtime (m.runtimeError (.arityMismatch native.arity.toNat argc)))) m)
    (hcrash : m.stack.size < argc → E .crashed m) :
    Ends (callNative native argc) m Q E := by
  refine ends_bind (ends_checkArity (fun ha => ?_) harity)
  refine ends_bind (ends_argumentStart (fun hargs => ?_) hcrash)
  refine ends_get (ends_bind ((hrun ha hargs).mono (fun result m' h => ?_) fun _ _ => id))
  cases result with
  | error text => exact ends_fail h
  | ok v =>
      simp only at h ⊢
      split
      · rename_i hz; rw [if_pos hz] at h; exact ends_crash h
      · rename_i hz; rw [if_neg hz] at h; exact ends_bind (ends_truncate h)

theorem ends_callValue {callee : Value} {argc : Nat} {Q : Unit → Machine → Prop}
    (hfunction : ∀ x f, callee = .object x → m.heap.get? x = some (.function f) →
      Ends (callFunction x f.arity.toNat argc) m Q E)
    (hnative : ∀ x n, callee = .object x → m.heap.get? x = some (.native n) →
      Ends (callNative n argc) m Q E)
    (hkind : ∀ name, E (.failed (.runtime (m.runtimeError (.notCallable name)))) m)
    (hdead : ∀ x, callee = .object x → m.heap.get? x = none →
      E (.failed (.corruptBytecode m.lastOffset (.deadCallee x))) m) :
    Ends (callValue callee argc) m Q E := by
  refine ends_get ?_
  dsimp only
  split
  · rename_i x
    split
    · rename_i f hx; exact hfunction x f rfl hx
    · rename_i n hx; exact hnative x n rfl hx
    · exact ends_fail (hkind _)
    · rename_i hx; exact ends_corrupt (hdead x rfl hx)
  · exact ends_fail (hkind _)

theorem ends_callValue_native {x : Handle} {native : NativeFunction} {argc : Nat}
    {Q : Unit → Machine → Prop} (hx : m.heap.get? x = some (.native native))
    (h : Ends (callNative native argc) m Q E) : Ends (callValue (.object x) argc) m Q E := by
  refine ends_get ?_
  simp only [hx]
  exact h

theorem ends_ret {rest : Array Frame} {f : Frame} {Q : Unit → Machine → Prop}
    (hf : m.frames = rest.push f)
    (hempty : m.stack = #[] → E (.failed (.corruptBytecode m.lastOffset .stackUnderflow)) m)
    (hcrash : ∀ (values : Array Value) v, m.stack = values.push v → f.base = 0 →
      E .crashed { m with stack := values, frames := rest })
    (hlast : ∀ (values : Array Value) v, m.stack = values.push v → f.base ≠ 0 → rest = #[] →
      E (.returned v) { m with stack := values.take (f.base - 1), frames := rest })
    (hpush : ∀ (values : Array Value) v, m.stack = values.push v → f.base ≠ 0 → rest ≠ #[] →
      Ends (push v) { m with stack := values.take (f.base - 1), frames := rest } Q E) :
    Ends ret m Q E := by
  refine ends_bind (ends_pop (fun values v hv => ?_) hempty)
  have hf' : ({ m with stack := values } : Machine).frames = rest.push f := hf
  refine ends_bind (ends_frame hf' (ends_bind (ends_modify ?_)))
  simp only [hf, Array.pop_push]
  unfold Frame.calleeSlot?
  by_cases hb : f.base = 0
  · rw [if_pos hb]; exact ends_crash (hcrash values v hv hb)
  · rw [if_neg hb]
    refine ends_bind (ends_truncate (ends_get ?_))
    by_cases hr : rest = #[]
    · rw [if_pos (by simp [hr])]; exact ends_throw (hlast values v hv hb hr)
    · rw [if_neg (by simp [hr])]; exact hpush values v hv hb hr

end Exec

/-! ## Whole instructions -/

/-- The instruction that a machine is about to execute, if it can be read. -/
def Machine.next? (m : Machine) : Option (Opcode × Nat) :=
  m.frames.back?.bind fun f => (m.heap.function? f.function).bind fun g =>
    match g.chunk.decode f.ip with
    | .instruction op n => some (op, n)
    | _ => none

namespace Exec

variable {m : Machine} {Q : Unit → Machine → Prop} {E : Halt → Machine → Prop}

theorem next?_eq_some {op : Opcode} {n : Nat} :
    m.next? = some (op, n) ↔ ∃ (rest : Array Frame) (f : Frame) (g : BytecodeFunction),
      m.frames = rest.push f ∧ m.heap.function? f.function = some g ∧
      g.chunk.decode f.ip = .instruction op n := by
  unfold Machine.next?
  simp only [Option.bind_eq_some_iff]
  constructor
  · rintro ⟨f, hf, g, hg, hd⟩
    obtain ⟨rest, hrest⟩ := Array.back?_eq_some_iff.mp hf
    refine ⟨rest, f, g, hrest, hg, ?_⟩
    split at hd
    · rename_i hd'
      simp only [Option.some.injEq, Prod.mk.injEq] at hd
      rw [hd', hd.1, hd.2]
    · exact absurd hd (by simp)
  · rintro ⟨rest, f, g, hf, hg, hd⟩
    exact ⟨f, by rw [hf, Array.back?_push], g, hg, by rw [hd]⟩

/-- A step executes the instruction that is next. The pointer has moved behind it
by then. -/
theorem ends_step {op : Opcode} {n : Nat} {rest : Array Frame} {f : Frame} {g : BytecodeFunction}
    (hf : m.frames = rest.push f) (hg : m.heap.function? f.function = some g)
    (hd : g.chunk.decode f.ip = .instruction op n)
    (h : Ends (perform op n)
      { m with frames := rest.push { f with ip := f.ip + 1 + op.operandWidth } } Q E) :
    Ends step m Q E := by
  refine ends_bind (ends_bind (ends_frame hf (ends_get ?_)))
  simp only [hg, hd]
  exact ends_bind (ends_setPointer hf (ends_pure h))

theorem ends_step_unknown {rest : Array Frame} {f : Frame} {g : BytecodeFunction}
    (hf : m.frames = rest.push f) (hg : m.heap.function? f.function = some g) {b : UInt8}
    (hd : g.chunk.decode f.ip = .unknown b)
    (h : E (.failed (.corruptBytecode f.ip (.unknownOpcode b))) m) : Ends step m Q E := by
  refine ends_bind (ends_bind (ends_frame hf (ends_get ?_)))
  simp only [hg, hd]
  exact ends_corruptAt h

theorem ends_step_truncated {rest : Array Frame} {f : Frame} {g : BytecodeFunction}
    (hf : m.frames = rest.push f) (hg : m.heap.function? f.function = some g) {op : Opcode}
    (hd : g.chunk.decode f.ip = .truncated op)
    (h : E (.failed (.corruptBytecode g.chunk.size .pointerOutside)) m) : Ends step m Q E := by
  refine ends_bind (ends_bind (ends_frame hf (ends_get ?_)))
  simp only [hg, hd]
  exact ends_corruptAt h

/-- If no instruction can be read, a step does nothing but fail. -/
theorem ends_step_none (hn : m.next? = none)
    (h : ∀ offset cause, E (.failed (.corruptBytecode offset cause)) m) : Ends step m Q E := by
  cases hb : m.frames.back? with
  | none => exact ends_bind (ends_fetch_noFrame (Array.back?_eq_none_iff.mp hb) (h _ _))
  | some f =>
      obtain ⟨rest, hf⟩ := Array.back?_eq_some_iff.mp hb
      refine ends_bind (ends_fetch hf (fun g op n hg hd => ?_) (fun _ => h _ _) (fun _ _ _ => h _ _)
        (fun _ _ _ _ => h _ _) fun _ _ _ _ => h _ _)
      have hsome := next?_eq_some.mpr ⟨rest, f, g, hf, hg, hd⟩
      rw [hn] at hsome
      exact absurd hsome (by simp)

end Exec

end StackMachine
