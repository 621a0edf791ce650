import Mathlib.Data.Multiset.AddSub
import StackMachine.Proofs.Heap.Settling
import StackMachine.Proofs.Machine.Containment
import StackMachine.Proofs.Machine.Globals

/-!
# Pins balance

A pin keeps an object alive until it is taken back, once for each time it was set. Beside
a machine this file follows the pins that its host holds: a multiset, in which pinning
puts a handle and from which unpinning takes one if there is one. Nothing else that the
host does changes it, and above all the definition of a native function does not, which
pins its name for a while. The host may hold pins of the same name; it still holds as many
of them afterwards.

The heap keeps its pins in a list, and the pin that is taken back leaves its place to the
last. That the list holds exactly the host's pins, in some order, is kept by every call
(`held_apply`). Between two calls the stacks are empty, so
the globals and these pins are all that a collection starts from.
-/

namespace StackMachine

/-- What one handle of a list leads to. -/
theorem Reach.iff_exists {get : Handle → Option Object} {start : List Handle} {x : Handle} :
    Reach get start x ↔ ∃ y ∈ start, Reach get [y] x := by
  constructor
  · intro h
    induction h with
    | root hx ho => exact ⟨_, hx, .root (List.mem_singleton_self _) ho⟩
    | child _ hx hf ho ih =>
        obtain ⟨y, hy, hr⟩ := ih
        exact ⟨y, hy, hr.child hx hf ho⟩
  · rintro ⟨y, hy, hr⟩
    exact hr.mono fun z hz => (List.mem_singleton.mp hz) ▸ hy

/-- What a call makes of the pins that the host holds. -/
def HostCall.pins (P : Multiset Handle) : HostCall → Multiset Handle
  | pin handle => handle ::ₘ P
  | unpin handle => P.erase handle
  | _ => P

namespace Machine

/-- The pins of a machine, in no order. -/
def held (m : Machine) : Multiset Handle :=
  ↑m.heap.pinned.toList

/-- The machines between two calls, each with the pins that its host has set and not yet
taken back. -/
inductive IdleHolding : Machine → Multiset Handle → Prop where
  | start {config : MachineConfig} {output : Output} {scope : LogScope} {world : World}
      {m : Machine} : Machine.start config output scope world = .ok m → IdleHolding m 0
  | call {m : Machine} {P : Multiset Handle} (c : HostCall) : IdleHolding m P → c.Returns m →
      IdleHolding (c.apply m) (c.pins P)
  | sink {m : Machine} {P : Multiset Handle} (output : Output) : IdleHolding m P →
      IdleHolding { m with output } P

/-- What the globals lead to, by a name or by a value. -/
def GlobalsReach (m : Machine) (x : Handle) : Prop :=
  ∃ k v y, m.globals[k]? = some v ∧ (k = y ∨ v = .object y) ∧ Reach m.heap.get? [y] x

variable {m m' : Machine} {P : Multiset Handle}

theorem Idle.holding (h : m.Idle) : ∃ P, m.IdleHolding P := by
  induction h with
  | start hm => exact ⟨0, .start hm⟩
  | call c _ hc ih =>
      obtain ⟨P, hP⟩ := ih
      exact ⟨_, .call c hP hc⟩
  | sink output _ ih =>
      obtain ⟨P, hP⟩ := ih
      exact ⟨P, .sink output hP⟩

theorem IdleHolding.idle (h : m.IdleHolding P) : m.Idle := by
  induction h with
  | start hm => exact .start hm
  | call c _ hc ih => exact .call c ih hc
  | sink output _ ih => exact .sink output ih

/-! ## The pins of a machine are those that its host holds -/

theorem held_congr (h : m'.heap.pinned = m.heap.pinned) : m'.held = m.held := by
  unfold held
  rw [h]

theorem held_pin (m : Machine) (x : Handle) : (m.pin x).held = x ::ₘ m.held := by
  unfold held pin Heap.pin
  rw [Array.toList_push, Multiset.cons_coe, Multiset.coe_eq_coe]
  exact List.perm_append_singleton ..

theorem held_unpin (m : Machine) (x : Handle) : (m.unpin x).held = m.held.erase x := by
  unfold held
  rw [Multiset.coe_erase, Multiset.coe_eq_coe]
  exact m.heap.unpin_perm x

theorem held_intern (h : m.Regular) (text : String) : (m.intern text).2.held = m.held :=
  held_congr (Heap.intern_evolves h.sound.wellFormed m.roots text).pinned

theorem held_allocate (h : m.Regular) (o : Object) : (m.allocate o).2.held = m.held :=
  held_congr (Heap.allocate_evolves h.sound.wellFormed m.roots o).pinned

/-- **The definition of a native function takes back the pin that it sets**, and leaves
the host's pins of the same name alone. -/
theorem held_defineNative (h : m.Regular) (native : NativeFunction) :
    (m.defineNative native).2.held = m.held := by
  have hi := h.intern native.name
  have hbalance : ∀ key, ((((m.intern native.name).2.pin key).allocate (.native native)).2.unpin
      key).held = m.held := by
    intro key
    rw [held_unpin, held_allocate (hi.pin key), held_pin, Multiset.erase_cons_head,
      held_intern h]
  rcases defineNative_cases h.sound native with he | ⟨key, he | ⟨x, journal, _, _, he⟩⟩
  · rw [he]
    exact held_intern h _
  · rw [he]
    exact hbalance key
  · rw [he]
    exact hbalance key

theorem held_stable (P : Multiset Handle) : Stable fun m => m.Regular ∧ m.held = P where
  congr h hheap hglobals :=
    ⟨Regular.stable.congr h.1 hheap hglobals, (held_congr (by rw [hheap])).trans h.2⟩
  intern text h := ⟨h.1.intern text, (held_intern h.1 text).trans h.2⟩
  setGlobal v hname h := ⟨h.1.setGlobal v hname, h.2⟩

theorem held_runFunction (h : m.Regular) (fuel : Nat) (function : Handle) :
    (m.runFunction fuel function).2.held = m.held :=
  ((held_stable m.held).runFunction fuel function ⟨h, rfl⟩).2

theorem held_run (h : m.Regular) (fuel : Nat) (chunk : Chunk) :
    (m.run fuel chunk).2.held = m.held :=
  ((held_stable m.held).run fuel chunk ⟨h.allocate (by simp), held_allocate h _⟩).2

theorem held_editFunction {x : Handle} {edit : BytecodeFunction → BytecodeFunction}
    (he : m.editFunction x edit = some m') : m'.held = m.held := by
  unfold Machine.editFunction at he
  obtain ⟨effect, heff, rfl⟩ := Option.map_eq_some_iff.mp he
  obtain ⟨_, _, _, _, hpinned, _⟩ := Heap.editFunction_spec heff
  exact held_congr hpinned

/-- **A call does to the pins of the machine what it does to those of the host.** -/
theorem held_apply (h : m.Regular) (c : HostCall) : (c.apply m).held = c.pins m.held := by
  cases c with
  | intern text => exact held_intern h text
  | defineNative native => exact held_defineNative h native
  | collect => exact held_congr (h.sound.wellFormed.collection _ _).pinned
  | pin handle => exact held_pin m handle
  | unpin handle => exact held_unpin m handle
  | allocateFunction name arity => exact held_allocate h _
  | editFunction function edit =>
      simp only [HostCall.apply]
      cases he : m.editFunction function edit with
      | none => rfl
      | some m' => exact held_editFunction he
  | run fuel chunk => exact held_run h fuel chunk
  | runFunction fuel function => exact held_runFunction h fuel function

theorem IdleHolding.held (h : m.IdleHolding P) : m.held = P := by
  induction h with
  | @start config output scope world m hm =>
      have hempty : (fresh config output scope world).held = 0 := rfl
      rcases start_cases hm with ⟨_, rfl⟩ | ⟨_, hd⟩
      · exact hempty
      · have hs := held_defineNative (fresh_regular config output scope world) .clock
        rw [hd] at hs
        exact hs.trans hempty
  | call c hi _ ih => rw [held_apply hi.idle.regular, ih]
  | sink output _ ih => exact ih

/-! ## What survives a collection between two calls -/

theorem Idle.mem_roots (h : m.Idle) {x : Handle} :
    x ∈ m.roots ↔ ∃ k v, m.globals[k]? = some v ∧ (k = x ∨ v = .object x) := by
  obtain ⟨hstack, hframes⟩ := h.clean
  rw [Machine.mem_roots, hstack, hframes]
  simp

/-- **Between two calls the globals and the host's pins keep objects alive, and nothing
else does.** -/
theorem IdleHolding.reach_iff (h : m.IdleHolding P) {x : Handle} :
    Reach m.heap.get? (m.roots ++ m.heap.pinned.toList) x ↔
      m.GlobalsReach x ∨ ∃ p ∈ P, Reach m.heap.get? [p] x := by
  have hpins : ∀ p, p ∈ m.heap.pinned.toList ↔ p ∈ P := by
    intro p
    rw [← h.held]
    exact Multiset.mem_coe.symm
  rw [Reach.iff_exists]
  constructor
  · rintro ⟨y, hy, hr⟩
    rcases List.mem_append.mp hy with hroot | hpin
    · obtain ⟨k, v, hk, hv⟩ := h.idle.mem_roots.mp hroot
      exact Or.inl ⟨k, v, y, hk, hv, hr⟩
    · exact Or.inr ⟨y, (hpins y).mp hpin, hr⟩
  · rintro (⟨k, v, y, hk, hv, hr⟩ | ⟨p, hp, hr⟩)
    · exact ⟨y, List.mem_append_left _ (h.idle.mem_roots.mpr ⟨k, v, hk, hv⟩), hr⟩
    · exact ⟨p, List.mem_append_right _ ((hpins p).mpr hp), hr⟩

/-- A collection keeps an object that the globals do not lead to just if a pin does. -/
theorem IdleHolding.survives_iff (h : m.IdleHolding P) {x : Handle} {o : Object}
    (hx : m.heap.get? x = some o) (hout : ¬ m.GlobalsReach x) :
    (m.collect.2.heap.get? x = some o ↔ ∃ p ∈ P, Reach m.heap.get? [p] x) ∧
      (m.collect.2.heap.get? x = none ↔ ¬ ∃ p ∈ P, Reach m.heap.get? [p] x) := by
  have hc := h.idle.regular.sound.wellFormed.collection m.roots []
  rw [List.append_nil] at hc
  have hreach := h.reach_iff (x := x)
  rw [or_iff_right hout] at hreach
  have hcollected : m.collect.2.heap = (m.heap.collectFor m.roots []).heap := rfl
  rw [hcollected, ← hreach]
  by_cases hr : Reach m.heap.get? (m.roots ++ m.heap.pinned.toList) x
  · rw [hc.get?_kept hr, hx]
    simp [hr]
  · rw [hc.get?_gone hr]
    simp [hr]

/-! ## Native functions are defined altogether or not at all -/

/-- How the definition of a native function ends. Either nothing has been stored and the
globals are as they were, or the table has a new entry for the function, under the one
live string of its name. -/
theorem defineNative_outcome (h : m.Regular) (native : NativeFunction) :
    ((∃ e, (m.defineNative native).1 = .error e) ∧ m.nativeStored? native = none ∧
      (m.defineNative native).2.globals = m.globals) ∨
    ∃ key x, (m.defineNative native).1 = .ok () ∧ m.nativeStored? native = some x ∧
      (m.defineNative native).2.heap.string? key = some native.name ∧
      (m.defineNative native).2.globals = m.globals.insert key (.object x) := by
  simp only [Machine.defineNative, nativeStored?]
  cases he : m.intern native.name with
  | mk answer m₁ =>
      have hglobals : m₁.globals = m.globals := (congrArg (fun r => r.2.globals) he).symm
      cases answer with
      | error e => exact Or.inl ⟨⟨e, rfl⟩, rfl, hglobals⟩
      | ok key =>
          have hkey := string?_pinned h.sound he (.native native)
          cases hx : (m₁.pin key).allocate (.native native) with
          | mk stored m₂ =>
              have hglobals' : m₂.globals = m.globals :=
                (congrArg (fun r => r.2.globals) hx).symm.trans hglobals
              rw [hx] at hkey
              simp only [hx]
              cases stored with
              | error e => exact Or.inl ⟨⟨e, rfl⟩, rfl, hglobals'⟩
              | ok x =>
                  refine Or.inr ⟨key, x, rfl, rfl, (Heap.string?_unpin ..).trans hkey, ?_⟩
                  rw [← hglobals']
                  rfl

/-- What the definition of a native function does for a host that holds the pins `P`, by
its answer and the machine that it leaves. -/
structure DefinesNative (m : Machine) (native : NativeFunction) (P : Multiset Handle)
    (answer : Except OutOfMemory Unit) (m' : Machine) : Prop where
  /-- If it succeeds, the name stands for that very function, and no other global has
  changed: the table has one entry more, or another value in one. -/
  defined : answer = .ok () → ∃ key x,
    m'.heap.string? key = some native.name ∧
    m'.globals = m.globals.insert key (.object x) ∧
    m'.heap.native? x = some native ∧
    m'.global? native.name = some (.object x) ∧
    ∀ name, name ≠ native.name → m'.global? name = m.global? name
  /-- If there is no memory for it, the globals are as they were. -/
  refused : ∀ e, answer = .error e →
    m'.globals = m.globals ∧ ∀ name, m'.global? name = m.global? name
  /-- Either way the pins are those that the host held before. -/
  pins : m.held = P ∧ m'.held = P
  /-- So what the globals do not lead to is still kept by those pins and by nothing else. -/
  survives : ∀ x o, m'.heap.get? x = some o → ¬ m'.GlobalsReach x →
    (m'.collect.2.heap.get? x = some o ↔ ∃ p ∈ P, Reach m'.heap.get? [p] x) ∧
    (m'.collect.2.heap.get? x = none ↔ ¬ ∃ p ∈ P, Reach m'.heap.get? [p] x)

/-- **A native function is defined altogether or not at all, and the pins balance**, on
every machine between two calls, whatever its settings and its host's pins are. -/
theorem native_definition_balances {m : Machine} (h : m.Idle) (native : NativeFunction) :
    (∃ P, m.IdleHolding P) ∧ ∀ P, m.IdleHolding P →
      m.DefinesNative native P (m.defineNative native).1 (m.defineNative native).2 := by
  refine ⟨h.holding, fun P hP => ?_⟩
  have hP' : (m.defineNative native).2.IdleHolding P := .call (.defineNative native) hP nofun
  obtain ⟨M, hM⟩ := h.bindings
  have hr := hM.represents
  have hr' := hr.defineNative native
  refine ⟨fun hok => ?_, fun e he => ?_, ⟨hP.held, hP'.held⟩,
    fun x o hx hout => hP'.survives_iff hx hout⟩
  · rcases defineNative_outcome h.regular native with ⟨⟨e, he⟩, _⟩ | ⟨key, x, _, hx, hkey, htable⟩
    · rw [hok] at he
      exact absurd he (by simp)
    · have hlive := (defineNative_stored hr native).2 x hx
      simp only [HostCall.bindings, hx, Option.elim_some] at hr'
      refine ⟨key, x, hkey, htable, hlive, ?_, fun name hne => ?_⟩
      · rw [hr'.lookup, Finmap.lookup_insert]
      · rw [hr'.lookup, Finmap.lookup_insert_of_ne _ hne, hr.lookup]
  · rcases defineNative_outcome h.regular native with ⟨_, hnone, htable⟩ | ⟨_, _, hok, _⟩
    · simp only [HostCall.bindings, hnone, Option.elim_none] at hr'
      exact ⟨htable, fun name => by rw [hr'.lookup, hr.lookup]⟩
    · rw [hok] at he
      exact absurd he (by simp)

/-- A machine with nothing, and with a limit. -/
def limited (maxBytes : Option Nat) : Machine :=
  fresh { registerBuiltins := false, heap := { maxBytes } }

/-- The machine when its host has interned the name of the clock and pinned it. -/
def pinnedName (maxBytes : Option Nat) : Machine :=
  (HostCall.pin ⟨0, 0⟩).apply ((HostCall.intern "clock").apply (limited maxBytes))

theorem pinnedName_holding (maxBytes : Option Nat) :
    (pinnedName maxBytes).IdleHolding {⟨0, 0⟩} := by
  have htable : (limited maxBytes).config.hasFrameTable = true := by
    simp [limited, fresh, MachineConfig.hasFrameTable]
  have hstart : Machine.start (limited maxBytes).config = .ok (limited maxBytes) := by
    unfold Machine.start
    rw [htable]
    rfl
  have hnamed : ((HostCall.intern "clock").apply (limited maxBytes)).IdleHolding 0 :=
    .call _ (.start hstart) (by simp [HostCall.Returns, HostCall.outcome?])
  exact .call (.pin ⟨0, 0⟩) hnamed (by simp [HostCall.Returns, HostCall.outcome?])

/-- The heap of the machine: the name of the clock, with one pin. -/
def pinnedNameHeap (maxBytes : Option Nat) : Heap where
  config := { maxBytes }
  slots := ⟨#[some { object := .string "clock", size := 109 }], #[0]⟩
  interned := (∅ : Std.HashMap String Handle).insert "clock" ⟨0, 0⟩
  pinned := #[⟨0, 0⟩]
  bytes := 109
  stats := { allocated := 1, peakBytes := 109 }

theorem pinnedName_eq (maxBytes : Option Nat) (h : maxBytes = none ∨ maxBytes = some 200) :
    pinnedName maxBytes = { limited maxBytes with heap := pinnedNameHeap maxBytes } := by
  have hnone : (limited maxBytes).heap.interned? "clock" = none := by
    simp [limited, fresh, Heap.empty, Heap.interned?]
  unfold pinnedName
  simp only [HostCall.apply, intern, absorb, Heap.intern, hnone]
  rcases h with rfl | rfl
  · rfl
  · rfl

/-- Interning the name finds the string that is there. -/
theorem pinnedName_intern (maxBytes : Option Nat) (h : maxBytes = none ∨ maxBytes = some 200) :
    (pinnedName maxBytes).intern "clock" = (.ok ⟨0, 0⟩, pinnedName maxBytes) := by
  have hsome : (pinnedNameHeap maxBytes).interned? "clock" = some ⟨0, 0⟩ := by
    simp [pinnedNameHeap, Heap.interned?]
  rw [pinnedName_eq maxBytes h]
  simp only [intern, Heap.intern, hsome]
  rfl

/-- The definition of the clock finds its name, and has to store the function. -/
theorem pinnedName_defineNative (maxBytes : Option Nat)
    (h : maxBytes = none ∨ maxBytes = some 200) :
    let stored := ((pinnedName maxBytes).pin ⟨0, 0⟩).allocate (.native .clock)
    ((pinnedName maxBytes).defineNative .clock).1 = stored.1.map (fun _ => ()) ∧
      ((pinnedName maxBytes).defineNative .clock).2.heap.get? = stored.2.heap.get? ∧
      stored.1 = (((pinnedNameHeap maxBytes).pin ⟨0, 0⟩).allocate (pinnedName maxBytes).roots
        (.native .clock)).answer := by
  have hname : NativeFunction.clock.name = "clock" := rfl
  have hanswer : (((pinnedName maxBytes).pin ⟨0, 0⟩).allocate (.native .clock)).1 =
      (((pinnedNameHeap maxBytes).pin ⟨0, 0⟩).allocate (pinnedName maxBytes).roots
        (.native .clock)).answer := by
    rw [pinnedName_eq maxBytes h]
    rfl
  simp only [defineNative, hname, pinnedName_intern maxBytes h]
  cases hx : ((pinnedName maxBytes).pin ⟨0, 0⟩).allocate (.native .clock) with
  | mk answer m =>
      rw [hx] at hanswer
      cases answer with
      | error e => exact ⟨rfl, funext (Heap.get?_unpin m.heap ⟨0, 0⟩), hanswer⟩
      | ok x => exact ⟨rfl, funext (Heap.get?_unpin m.heap ⟨0, 0⟩), hanswer⟩

/-- The pins keep the name, which leaves too little room for the function. -/
theorem pinnedNameHeap_allocate (roots : List Handle) :
    (((pinnedNameHeap (some 200)).pin ⟨0, 0⟩).allocate roots (.native .clock)).answer =
      .error ⟨109, 200⟩ := by
  have hu : Unmarked ((pinnedNameHeap (some 200)).pin ⟨0, 0⟩).slots := by
    intro e he
    simp only [pinnedNameHeap, Heap.pin, List.mem_toArray, List.mem_singleton,
      Option.some.injEq] at he
    rw [he]
  have hall : ∀ x, ((pinnedNameHeap (some 200)).pin ⟨0, 0⟩).contains x →
      Reach ((pinnedNameHeap (some 200)).pin ⟨0, 0⟩).get? (roots ++ [⟨0, 0⟩, ⟨0, 0⟩] ++ []) x := by
    intro x hx
    obtain ⟨o, ho⟩ := Heap.contains_iff.mp hx
    obtain ⟨e, he, _⟩ := Heap.get?_eq_some.mp ho
    have hgeneration := (entryAt?_eq_some.mp he).1
    simp only [pinnedNameHeap, Heap.pin, List.getElem?_toArray,
      List.getElem?_singleton] at hgeneration
    split at hgeneration
    · rename_i hindex
      have hx : x = ⟨0, 0⟩ := Handle.eq_of hindex (Option.some.inj hgeneration).symm
      rw [hx] at ho ⊢
      exact .root (by simp) ho
    · exact absurd hgeneration (by simp)
  have hprepared : ((pinnedNameHeap (some 200)).pin ⟨0, 0⟩).prepared roots (.native .clock) = _ :=
    (Heap.collectFor_of_reached hu rfl roots [] hall).2
  rw [(Heap.allocate_prepared ..).1, hprepared]
  rfl

/-- The host has pinned the name that the definition pins as well. Where there is too little
room it still holds its pin, which keeps the name alive. -/
theorem native_definition_balances_pinned :
    let refused := (pinnedName (some 200)).defineNative .clock
    let defined := (pinnedName none).defineNative .clock
    (refused.1 = .error ⟨109, 200⟩ ∧ refused.2.held = {⟨0, 0⟩} ∧ refused.2.global? "clock" = none ∧
      refused.2.collect.2.heap.get? ⟨0, 0⟩ = some (.string "clock")) ∧
    defined.1 = .ok () ∧ defined.2.held = {⟨0, 0⟩} ∧
      ∃ x, defined.2.global? "clock" = some (.object x) ∧
        defined.2.heap.native? x = some .clock := by
  intro refused defined
  have hlimited := pinnedName_holding (some 200)
  have hfree := pinnedName_holding none
  have hrefused := (native_definition_balances hlimited.idle .clock).2 _ hlimited
  have hdefined := (native_definition_balances hfree.idle .clock).2 _ hfree
  obtain ⟨herror, hget, hstored⟩ := pinnedName_defineNative (some 200) (Or.inr rfl)
  rw [hstored, pinnedNameHeap_allocate] at herror
  have hok : defined.1 = .ok () := by
    obtain ⟨hok, _, hstored⟩ := pinnedName_defineNative none (Or.inl rfl)
    rw [hstored] at hok
    exact hok
  obtain ⟨htable, hsame⟩ := hrefused.refused _ herror
  have hempty : (pinnedName (some 200)).globals = ∅ := rfl
  have hglobal : (pinnedName (some 200)).global? "clock" = none := by
    unfold global?
    rw [hempty]
    simp
  have hlive : refused.2.heap.get? ⟨0, 0⟩ = some (.string "clock") := by
    have hname := string?_pinned hlimited.idle.regular.sound (pinnedName_intern _ (Or.inr rfl))
      (.native .clock)
    rw [hget]
    exact Heap.string?_eq_some.mp hname
  have hout : ¬ refused.2.GlobalsReach ⟨0, 0⟩ := by
    intro hreach
    obtain ⟨k, v, y, hk, _⟩ := hreach
    rw [htable, hempty] at hk
    exact absurd hk (by simp)
  have hkept := (hrefused.survives _ _ hlive hout).1.mpr
    ⟨⟨0, 0⟩, Multiset.mem_singleton_self _, .root (List.mem_singleton_self _) hlive⟩
  obtain ⟨_, x, _, _, hnative, hbound, _⟩ := hdefined.defined hok
  exact ⟨⟨herror, hrefused.pins.2, (hsame "clock").trans hglobal, hkept⟩, hok, hdefined.pins.2,
    x, hbound, hnative⟩

end Machine

end StackMachine
