import MazeOS.Service
import Mathlib.Data.Prod.Lex

/-!
Delivery of interrupts over whole runs. Every step keeps the controllers in their
mode and what is in service owed by the code in use (`step_sound`). So no request is
lost, none is delivered twice, and nothing is in service where an interrupt can be
taken (`interrupts_delivered`). Interrupts do not stay disabled: every statement
comes closer to one that enables them, on the same stack or on one that was left in
order (`go_rank`, `interrupts_return`).
-/
namespace MazeOS.Delivery
open MazeOS.Runs MazeOS.Controllers MazeOS.Gates MazeOS.Interrupts MazeOS.Service
open MazeOS.InterruptMask (master8259Port slave8259Port portOf pinOf)

/-! ### What every step keeps -/

/-- The controllers are in their plain mode with the masks they had, and what is in
    service is owed by the code in use, which runs with interrupts disabled. -/
structure Sound (k : Masks) (r : Device → Bool) (o : Owed) (m : Machine) : Prop where
  pics : m.pics = pics k r o
  quiet : o ≠ .nothing → m.interrupts = false
  owes : Owes o m.code
  running : safe m.interrupts m.code = true
  saved : ∀ t, t ≠ m.current → saved (m.threads t) = true
  harmless : ∀ t, (m.threads t).all isHarmless = true
  counted : ∀ d, m.raised d = m.served d.vector + if r d then 1 else 0
  masked : ∀ d, k.masked d = true → m.served d.vector = 0
  others : ∀ v, (∀ d : Device, v ≠ d.vector) → m.served v = 0

section
variable {k : Masks} {r : Device → Bool} {o : Owed} {m : Machine}

@[simp] theorem setCode_code (m : Machine) (code : List Stmt) : (m.setCode code).code = code := Function.update_self _ _ _

theorem setCode_threads {t : Nat} (other : t ≠ m.current) (code : List Stmt) :
    (m.setCode code).threads t = m.threads t := Function.update_of_ne other _ _

theorem vector_injective {d d' : Device} (same : d.vector = d'.vector) : d = d' := by
  cases d <;> cases d' <;> first | rfl | exact absurd same (by decide)

/-- The code in use changes, and the controllers and the flag with it. -/
theorem sound_change (sound : Sound k r o m) {code : List Stmt} (o' : Owed) (on : Bool)
    (quiet : o' ≠ .nothing → on = false) (owes : Owes o' code) (running : safe on code = true)
    (harmless : code.all isHarmless = true) :
    Sound k r o' { m.setCode code with pics := Service.pics k r o', interrupts := on } where
  pics := rfl
  quiet := quiet
  owes := by
    show Owes o' (m.setCode code).code
    rwa [setCode_code]
  running := by
    show safe on (m.setCode code).code = true
    rwa [setCode_code]
  saved t other := by
    have other : t ≠ m.current := other
    show saved ((m.setCode code).threads t) = true
    rw [setCode_threads other]
    exact sound.saved t other
  harmless t := by
    show ((m.setCode code).threads t).all _ = true
    by_cases same : t = m.current
    · subst same
      exact (congrArg (List.all · _) (setCode_code m code)).trans harmless
    · rw [setCode_threads same]
      exact sound.harmless t
  counted := sound.counted
  masked := sound.masked
  others := sound.others

/-- The code in use changes, and the interrupt flag with it. -/
theorem sound_flag (sound : Sound k r o m) {code : List Stmt} (on : Bool) (quiet : o ≠ .nothing → on = false)
    (owes : Owes o code) (running : safe on code = true) (harmless : code.all isHarmless = true) :
    Sound k r o { m.setCode code with interrupts := on } := by
  have changed := sound_change sound o on quiet owes running harmless
  rw [← sound.pics] at changed
  exact changed

/-- The code in use changes, and nothing else. -/
theorem sound_code (sound : Sound k r o m) {code : List Stmt} (owes : Owes o code)
    (running : safe m.interrupts code = true) (harmless : code.all isHarmless = true) :
    Sound k r o (m.setCode code) := sound_flag sound m.interrupts sound.quiet owes running harmless

/-- Another stack comes into use. -/
theorem sound_switch (sound : Sound k r .nothing m) {threads : Nat → List Stmt} {next : Nat}
    (running : safe m.interrupts (threads next) = true) (kept : ∀ t, t ≠ next → saved (threads t) = true)
    (harmless : ∀ t, (threads t).all isHarmless = true) :
    Sound k r .nothing { m with threads := threads, current := next } where
  pics := sound.pics
  quiet := sound.quiet
  owes := owes_nothing _
  running := running
  saved := kept
  harmless := harmless
  counted := sound.counted
  masked := sound.masked
  others := sound.others

theorem small_plain {value : Byte} (small : value.toNat < 8) (irqNum : Nat) :
    isPlain (.outb value (portOf irqNum)) = true := by
  have port : portOf irqNum = master8259Port ∨ portOf irqNum = slave8259Port := by
    unfold portOf
    split
    · exact .inl rfl
    · exact .inr rfl
  simp [isPlain,small,port]

theorem enable_small (b : Byte) (pin : Nat) (small : b.toNat < 8) : (b &&& ~~~(1#8 <<< pin)).toNat < 8 := by
  rw [BitVec.toNat_and]
  exact Nat.lt_of_le_of_lt Nat.and_le_left small

theorem disable_small (b : Byte) {pin : Nat} (small : b.toNat < 8) (low : pin < 3) : (b ||| 1#8 <<< pin).toNat < 8 := by
  rw [BitVec.toNat_or]
  refine Nat.or_lt_two_pow (n := 3) small ?_
  interval_cases pin <;> decide

/-- A write of the code, and what is owed behind it. -/
theorem write_sound (sound : Sound k r o m) {value : Byte} {port : Nat} {rest : List Stmt}
    (code : m.code = .outb value port :: rest) : ∃ o', outb m.pics value port = some (pics k r o') ∧ Owes o' rest ∧
      (o' ≠ .nothing → o ≠ .nothing) := by
  have safe := sound.harmless m.current
  rw [show m.threads m.current = _ from code,List.all_cons,Bool.and_eq_true] at safe
  have first : isPlain (.outb value port) = true ∨ .outb value port ∈ allEnds := by
    simpa [isHarmless] using safe.1
  have nothing_written (plain : isPlain (.outb value port) = true) : outb m.pics value port = some (pics k r o) := by
    have written : value.toNat < 8 ∧ (port = master8259Port ∨ port = slave8259Port) := by
      simpa [isPlain] using plain
    obtain ⟨small,rfl | rfl⟩ := written
    · exact sound.pics ▸ outb_small small 0
    · exact sound.pics ▸ outb_small small 8
  have owes := sound.owes
  rw [code] at owes
  rcases owes_cons owes with rfl | ⟨plain,later⟩ | ⟨value',port',same,ends,later⟩
  · rcases first with plain | among
    · exact ⟨.nothing,nothing_written plain,owes_nothing rest,fun owed => owed⟩
    · exact ⟨.nothing,sound.pics ▸ outb_idle among,owes_nothing rest,fun owed => owed⟩
  · exact ⟨o,nothing_written plain,later,fun owed => owed⟩
  · cases same
    refine ⟨o.next,sound.pics ▸ (outb_end ends).1,later,fun _ none => ?_⟩
    rw [none] at ends
    cases ends

theorem code_split {s : Stmt} {rest : List Stmt} (sound : Sound k r o m) (code : m.code = s :: rest) :
    isHarmless s = true ∧ rest.all isHarmless = true ∧ safe m.interrupts (s :: rest) = true ∧
    Owes o (s :: rest) := by
  have harmless : m.code.all isHarmless = true := sound.harmless m.current
  have running := sound.running
  have owes := sound.owes
  rw [code] at harmless running owes
  rw [List.all_cons,Bool.and_eq_true] at harmless
  exact ⟨harmless.1,harmless.2,running,owes⟩

/-- Behind a statement that writes nothing, as much is owed. -/
theorem owes_behind {s : Stmt} {rest : List Stmt} (owes : Owes o (s :: rest))
    (silent : ∀ value port, s ≠ .outb value port) :
    Owes o rest ∧ (isPlain s = false → o = .nothing) := by
  rcases owes_cons owes with rfl | ⟨plain,later⟩ | ⟨value,port,write,_,_⟩
  · exact ⟨owes_nothing rest,fun _ => rfl⟩
  · exact ⟨later,fun other => by rw [plain] at other; cases other⟩
  · exact absurd write (silent value port)

/-- Stacks after one of them is left for another. -/
theorem threads_left (sound : Sound k r o m) (left : List Stmt) (kept : saved left = true)
    (harmless : left.all isHarmless = true) (t : Nat) :
    saved ((m.setCode left).threads t) = true ∧ ((m.setCode left).threads t).all isHarmless = true := by
  by_cases same : t = m.current
  · subst same
    rw [show (m.setCode left).threads m.current = left from setCode_code m left]
    exact ⟨kept,harmless⟩
  · rw [setCode_threads same]
    exact ⟨sound.saved t same,sound.harmless t⟩

/-- The stack that is switched to can be resumed. -/
theorem next_resumes (sound : Sound k r o m) {left : List Stmt} {next : Nat} (kept : saved left = true)
    (same : next = m.current → left ≠ []) (some : m.threads next ≠ []) :
    wakes ((m.setCode left).threads next) = true ∧ safe false ((m.setCode left).threads next) = true := by
  by_cases here : next = m.current
  · have stays : (m.setCode left).threads next = left := here ▸ setCode_code m left
    rw [stays]
    exact safe_of_saved (same here) kept
  · rw [setCode_threads here]
    exact safe_of_saved some (sound.saved next here)

theorem wakes_ne {code : List Stmt} (resumes : wakes code = true) : code ≠ [] := by
  rintro rfl
  cases resumes

/-- The next statement keeps the code and the controllers in order. -/
theorem go_sound (sound : Sound k r o m) (next : Nat) : ∃ m' o', go m next = .ok m' ∧ Sound k r o' m' := by
  cases code : m.code with
  | nil => exact ⟨m,o,by rw [go,code],sound⟩
  | cons s rest =>
    obtain ⟨first,harmless,running,owes⟩ := code_split sound code
    cases s with
    | enableIrq irqNum =>
      have later := (owes_behind owes (by simp)).1
      have small : (inb m.pics (portOf irqNum) &&& ~~~(1#8 <<< pinOf irqNum)).toNat < 8 :=
        enable_small _ _ (sound.pics ▸ inb_small)
      have plain := small_plain small irqNum
      refine ⟨_,o,by rw [go,code],sound_code sound (owes_plain plain later) running ?_⟩
      simp [isHarmless,plain,harmless]
    | disableIrq irqNum =>
      have later := (owes_behind owes (by simp)).1
      have low : pinOf irqNum < 3 := by simpa [isHarmless,isPlain] using first
      have small : (inb m.pics (portOf irqNum) ||| 1#8 <<< pinOf irqNum).toNat < 8 :=
        disable_small _ (sound.pics ▸ inb_small) low
      have plain := small_plain small irqNum
      refine ⟨_,o,by rw [go,code],sound_code sound (owes_plain plain later) running ?_⟩
      simp [isHarmless,plain,harmless]
    | outb value port =>
      obtain ⟨o',written,later,less⟩ := write_sound sound code
      refine ⟨_,o',?_,sound_change sound o' m.interrupts (fun owed => sound.quiet (less owed)) later running harmless⟩
      rw [go,code]
      show (m.setCode rest).write value port = _
      rw [Machine.write,show (m.setCode rest).pics = m.pics from rfl,written]
      rfl
    | cli =>
      have later := (owes_behind owes (by simp)).1
      exact ⟨_,o,by rw [go,code],sound_flag sound false (fun _ => rfl) later running harmless⟩
    | sti =>
      obtain ⟨later,free⟩ := owes_behind owes (by simp)
      have quiet (owed : o ≠ .nothing) : true = false := absurd (free rfl) owed
      exact ⟨_,o,by rw [go,code],sound_flag sound true quiet later running harmless⟩
    | iret =>
      obtain ⟨later,free⟩ := owes_behind owes (by simp)
      have quiet (owed : o ≠ .nothing) : true = false := absurd (free rfl) owed
      exact ⟨_,o,by rw [go,code],sound_flag sound true quiet later running harmless⟩
    | contextSwitch =>
      obtain ⟨later,free⟩ := owes_behind owes (by simp)
      cases free rfl
      simp only [safe,Bool.and_eq_true,Bool.not_eq_true'] at running
      obtain ⟨off,resumes,further⟩ := running
      have kept : saved rest = true := by simp [saved,resumes,further]
      have left := threads_left sound rest kept harmless
      refine ⟨_,.nothing,by rw [go,code],?_⟩
      by_cases none : m.threads next = []
      · rw [if_pos none]
        exact sound_code sound (owes_nothing rest) (off ▸ further) harmless
      · rw [if_neg none]
        refine sound_switch sound ?_ (fun t _ => (left t).1) fun t => (left t).2
        rw [off]
        exact (next_resumes sound kept (fun _ => wakes_ne resumes) none).2
    | leave =>
      obtain ⟨later,free⟩ := owes_behind owes (by simp)
      cases free rfl
      simp only [safe,Bool.and_eq_true,Bool.not_eq_true'] at running
      obtain ⟨off,further⟩ := running
      have left := threads_left sound [] rfl rfl
      refine ⟨_,.nothing,by rw [go,code],?_⟩
      by_cases none : next = m.current ∨ m.threads next = []
      · rw [if_pos none]
        exact sound_code sound (owes_nothing rest) (off ▸ further) harmless
      · rw [if_neg none]
        obtain ⟨other,some⟩ := not_or.mp none
        refine sound_switch sound ?_ (fun t _ => (left t).1) fun t => (left t).2
        rw [off]
        exact (next_resumes sound rfl (fun same => absurd same other) some).2
    | start =>
      obtain ⟨later,free⟩ := owes_behind owes (by simp)
      cases free rfl
      simp only [safe,Bool.and_eq_true,Bool.not_eq_true'] at running
      obtain ⟨off,kept⟩ := running
      have left := threads_left sound rest (by simpa [saved] using kept) harmless
      refine ⟨_,.nothing,by rw [go,code]; rfl,sound_switch sound ?_ ?_ ?_⟩
      · rw [Function.update_self]
        rfl
      · intro t other
        rw [Function.update_of_ne other]
        exact (left t).1
      · intro t
        by_cases same : t = next
        · subst same
          rw [Function.update_self]
          rfl
        · rw [Function.update_of_ne same]
          exact (left t).2

theorem raise_sound (sound : Sound k r o m) (d : Device) : Sound k (Function.update r d true) o { m with
    pics := request m.pics d
    raised := if requested m.pics d then m.raised else Function.update m.raised d (m.raised d + 1) } where
  pics := by rw [sound.pics,request_pics]
  quiet := sound.quiet
  owes := sound.owes
  running := sound.running
  saved := sound.saved
  harmless := sound.harmless
  counted d' := by
    have before := sound.counted d'
    simp only [sound.pics,requested_pics]
    by_cases same : d' = d
    · subst same
      cases waits : r d' <;> simp [waits] at before ⊢ <;> omega
    · cases r d <;> simp [Function.update_of_ne same,before]
  masked := sound.masked
  others := sound.others

theorem handlerOf_vector (d : Device) : handlerOf d.vector = some d.wrapper := by
  cases d <;> rfl

theorem chosen_waits {d : Device} (first : chosen k r = some d) : r d = true ∧ k.masked d = false := by
  have waits : (r d && !k.masked d) = true := List.find?_some (p := fun d => r d && !k.masked d) first
  simpa using waits

/-- The processor takes an interrupt that the controllers pass on. -/
theorem deliver_sound (sound : Sound k r o m) (on : m.interrupts = true) (way : Option Switch) :
    ∃ r' o', Sound k r' o' (deliver m way) := by
  have free : o = .nothing := by
    by_contra owed
    rw [sound.quiet owed] at on
    cases on
  subst free
  have passed := acknowledge_pics (k := k) (r := r)
  rw [← sound.pics] at passed
  cases first : chosen k r with
  | none =>
    rw [first,Option.map_none] at passed
    refine ⟨r,.nothing,?_⟩
    rw [deliver,passed]
    exact sound
  | some d =>
    obtain ⟨waits,clear⟩ := chosen_waits first
    rw [first,Option.map_some] at passed
    have harmless : m.code.all isHarmless = true := sound.harmless m.current
    have running := sound.running
    rw [on] at running
    have changed := sound_change sound (.of d) false (fun _ => rfl) (wrapper_owes way d m.code)
      ((wrapper_safe way d m.code).trans running) (by rw [List.all_append,wrapper_harmless,harmless]; rfl)
    refine ⟨Function.update r d false,.of d,?_⟩
    rw [deliver,passed]
    simp only [handlerOf_vector,Option.elim_some]
    refine ⟨rfl,changed.quiet,changed.owes,changed.running,changed.saved,changed.harmless,?_,?_,?_⟩
    · intro d'
      have before := sound.counted d'
      by_cases same : d' = d
      · subst same
        simp only [waits,if_true] at before
        simp only [Function.update_self,Bool.false_eq_true,if_false]
        exact before
      · have vectors : d'.vector ≠ d.vector := fun equal => same (vector_injective equal)
        simp only [Function.update_of_ne vectors,Function.update_of_ne same]
        exact before
    · intro d' masked
      have vectors : d'.vector ≠ d.vector := by
        intro equal
        cases vector_injective equal
        rw [clear] at masked
        cases masked
      simp only [Function.update_of_ne vectors]
      exact sound.masked d' masked
    · intro v other
      simp only [Function.update_of_ne (other d)]
      exact sound.others v other

/-- Every step keeps the controllers in their mode, and the code sound. -/
theorem step_sound (sound : Sound k r o m) (e : Event) : ∃ m' r' o', step m e = .ok m' ∧ Sound k r' o' m' := by
  cases e with
  | raise d => exact ⟨_,_,o,rfl,raise_sound sound d⟩
  | deliver way =>
    by_cases on : m.interrupts = true
    · obtain ⟨r',o',after⟩ := deliver_sound sound on way
      exact ⟨_,r',o',by rw [step,if_pos on],after⟩
    · exact ⟨m,r,o,by rw [step,if_neg on],sound⟩
  | go next =>
    obtain ⟨m',o',gone,after⟩ := go_sound sound next
    exact ⟨m',r,o',gone,after⟩
  | call c =>
    by_cases user : m.code = []
    · have running := sound.running
      have owes := sound.owes
      rw [user] at running owes
      have on : m.interrupts = true := running
      have free : o = .nothing := owes_isEnd owes rfl
      subst free
      exact ⟨_,r,.nothing,by rw [step,if_pos user],
        sound_code sound (owes_nothing _) (on.symm ▸ call_safe c) (call_harmless c)⟩
    · exact ⟨m,r,o,by rw [step,if_neg user],sound⟩
  | fault rtcs =>
    cases ends : m.code.any Stmt.isEnd with
    | true => exact ⟨m,r,o,by rw [step,ends]; rfl,sound⟩
    | false =>
      have free := owes_isEnd sound.owes ends
      subst free
      exact ⟨_,r,.nothing,by rw [step,ends]; rfl,
        sound_flag sound false (fun _ => rfl) (owes_nothing _) (halt_safe false rtcs) (halt_harmless rtcs)⟩

theorem run_sound (sound : Sound k r o m) (events : List Event) :
    ∃ m' r' o', run step m events = .ok m' ∧ Sound k r' o' m' := by
  induction events generalizing m r o with
  | nil => exact ⟨m,r,o,rfl,sound⟩
  | cons e rest ih =>
    obtain ⟨t,r',o',taken,after⟩ := step_sound sound e
    obtain ⟨last,r'',o'',ran,final⟩ := ih after
    exact ⟨last,r'',o'',(run_cons m e rest last).mpr ⟨t,taken,ran⟩,final⟩

end

theorem boot_sound (k : Masks) : Sound k (fun _ => false) .nothing (boot (pics k (fun _ => false) .nothing)) where
  pics := rfl
  quiet owed := absurd rfl owed
  owes := owes_nothing _
  running := show safe false entry = true by decide
  saved t other := by
    have other : t ≠ 0 := other
    show saved (if t = 0 then entry else []) = true
    rw [if_neg other]
    rfl
  harmless t := by
    show (if t = 0 then entry else []).all isHarmless = true
    split
    · decide
    · rfl
  counted _ := rfl
  masked _ _ := rfl
  others _ _ := rfl

/-! ### Delivery -/

/-- What holds of the machine between any two steps. -/
structure Delivers (k : Masks) (m : Machine) : Prop where
  /-- The masks stay what `i8259_init` made them. -/
  masks : m.pics.master.imr = k.master ∧ m.pics.slave.imr = k.slave
  /-- So does their mode: the base vectors, no special mask mode, no automatic end
      or rotation, fixed priorities, and the command port reads the requests. -/
  mode : m.pics.master = .normal 0x20 m.pics.master.irr m.pics.master.isr m.pics.master.imr ∧
    m.pics.slave = .normal 0x28 m.pics.slave.irr m.pics.slave.isr m.pics.slave.imr
  /-- Nothing is in service where an interrupt can be taken. -/
  idle : m.interrupts = true → m.pics.master.isr = 0 ∧ m.pics.slave.isr = 0
  /-- If requests that are not masked wait there, the one of the lowest interrupt
      number is passed on to the handler of its device. -/
  next : m.interrupts = true → ∀ d, requested m.pics d = true → k.masked d = false → ∃ d' after,
    requested m.pics d' = true ∧ k.masked d' = false ∧
      (∀ d'', requested m.pics d'' = true → k.masked d'' = false → d'.irq ≤ d''.irq) ∧
      m.pics.acknowledge cascade = some (d'.vector,after) ∧ requested after d' = false ∧
      handlerOf d'.vector = some d'.wrapper
  /-- Every request was delivered once, or is waiting. -/
  counted : ∀ d, m.raised d = m.served d.vector + if requested m.pics d then 1 else 0
  /-- A masked device is never served, and no other vector is delivered. -/
  masked : ∀ d, k.masked d = true → m.served d.vector = 0
  others : ∀ v, (∀ d : Device, v ≠ d.vector) → m.served v = 0
  /-- A process outside the kernel has interrupts enabled. -/
  user : m.code = [] → m.interrupts = true

section
variable {k : Masks} {r : Device → Bool} {o : Owed} {m : Machine}

theorem chosen_exists {d : Device} (waits : r d = true) (clear : k.masked d = false) : ∃ d', chosen k r = some d' := by
  have among : d ∈ [Device.pit,.keyboard,.rtc] := by cases d <;> simp
  exact Option.isSome_iff_exists.mp (List.find?_isSome.mpr ⟨d,among,by simp [waits,clear]⟩)

/-- The device that comes first has the lowest interrupt number. -/
theorem chosen_lowest {d d' : Device} (first : chosen k r = some d') (waits : r d = true) (clear : k.masked d = false) :
    d'.irq ≤ d.irq := by
  obtain ⟨_,earlier,later,split,before⟩ := List.find?_eq_some_iff_append.mp first
  have among : d ∈ [Device.pit,.keyboard,.rtc] := by cases d <;> simp
  have sorted : [Device.pit,.keyboard,.rtc].Pairwise fun d d' => d.irq ≤ d'.irq := by decide
  rw [split] at among sorted
  rcases List.mem_append.mp among with ahead | behind
  · have passed := before d ahead
    simp [waits,clear] at passed
  · rcases List.mem_cons.mp behind with rfl | after
    · exact Nat.le_refl _
    · exact (List.pairwise_cons.mp (List.pairwise_append.mp sorted).2.1).1 d after

theorem sound_delivers (sound : Sound k r o m) : Delivers k m where
  masks := by
    rw [sound.pics]
    exact ⟨rfl,rfl⟩
  mode := by
    rw [sound.pics]
    exact ⟨rfl,rfl⟩
  idle on := by
    cases o with
    | nothing =>
      rw [sound.pics]
      exact ⟨rfl,rfl⟩
    | _ => simp [sound.quiet] at on
  next on d waits clear := by
    have free : o = .nothing := by
      by_contra owed
      rw [sound.quiet owed] at on
      cases on
    subst free
    rw [sound.pics,requested_pics] at waits
    obtain ⟨d',first⟩ := chosen_exists waits clear
    obtain ⟨waits',clear'⟩ := chosen_waits first
    refine ⟨d',pics k (Function.update r d' false) (.of d'),?_,clear',?_,?_,?_,handlerOf_vector d'⟩
    · rw [sound.pics,requested_pics,waits']
    · intro d'' waits'' clear''
      rw [sound.pics,requested_pics] at waits''
      exact chosen_lowest first waits'' clear''
    · rw [sound.pics,acknowledge_pics,first,Option.map_some]
    · rw [requested_pics,Function.update_self]
  counted d := by rw [sound.counted,sound.pics,requested_pics]
  masked := sound.masked
  others := sound.others
  user none := by
    have running := sound.running
    rwa [none] at running

end

/-- From `i8259_init` on, whatever the order in which the devices request, interrupts
    are delivered, processes call, fault and are switched, the controllers keep their
    mode and their masks; no request is lost and none is delivered twice, whenever
    interrupts are enabled nothing is in service, and the first request that is not
    masked goes to the handler of its device. -/
theorem interrupts_delivered {found : Pair} (usable : Found found) (events : List Event) : ∃ after m,
    i8259Init found = some after ∧ run step (boot after) events = .ok m ∧ Delivers (masksFound found) m := by
  obtain ⟨m,r,o,ran,sound⟩ := run_sound (boot_sound (masksFound found)) events
  exact ⟨_,m,i8259Init_found usable,ran,sound_delivers sound⟩

/-- Controllers as firmware leaves them. -/
def firmware : Pair := ⟨.normal 8 0 0 0xB8,.normal 0x70 0 0 0x8F⟩

theorem firmware_found : Found firmware := ⟨⟨rfl,rfl⟩,⟨rfl,rfl⟩,rfl,rfl⟩

/-- The first events of a run: `entry` up to its `sti`, with a key that is pressed. -/
def pressed : List Event := [.raise .keyboard,.go 0,.go 0,.go 0,.go 0,.go 0,.go 0,.go 0,.deliver none]

theorem interrupts_delivered_pressed : ∃ after m, i8259Init firmware = some after ∧
    run step (boot after) pressed = .ok m ∧ Delivers (masksFound firmware) m ∧ m.served 0x21 = 1 := by
  obtain ⟨after,m,initial,ran,delivers⟩ := interrupts_delivered firmware_found pressed
  refine ⟨after,m,initial,ran,delivers,?_⟩
  cases (i8259Init_found firmware_found).symm.trans initial
  cases ran
  rfl

/-! ### Interrupts come back -/

/-- How many steps a statement takes: a mask is read, and then written. -/
def stepsOf : Stmt → Nat
  | .enableIrq _ => 2
  | .disableIrq _ => 2
  | _ => 1

def steps (code : List Stmt) : Nat := (code.map stepsOf).sum

/-- What gets smaller while interrupts stay disabled: at first it may be that another
    stack is still to come into use. -/
def rank (code : List Stmt) : Nat ×ₗ Nat := toLex (if wakes code then 0 else 1,steps code)

section
variable {k : Masks} {r : Device → Bool} {o : Owed} {m m' : Machine} {code code' : List Stmt} {next : Nat}
  {events : Nat → Event}

theorem rank_shorter (kept : wakes code = true → wakes code' = true) (shorter : steps code' < steps code) :
    rank code' < rank code := by
  rw [rank,rank,Prod.Lex.toLex_lt_toLex]
  cases before : wakes code with
  | true => simp [kept before,shorter]
  | false => cases wakes code' <;> simp [shorter]

theorem rank_wakes (other : wakes code = false) (now : wakes code' = true) : rank code' < rank code := by
  rw [rank,rank,Prod.Lex.toLex_lt_toLex]
  simp [other,now]

theorem code_ne (sound : Sound k r o m) (off : m.interrupts = false) : m.code ≠ [] := by
  intro none
  have running := sound.running
  rw [none,off] at running
  cases running

/-- A statement enables interrupts, or comes closer to one that does. -/
theorem go_rank (sound : Sound k r o m) (off : m.interrupts = false) (gone : go m next = .ok m') :
    m'.interrupts = true ∨ rank m'.code < rank m.code := by
  cases code : m.code with
  | nil => exact absurd code (code_ne sound off)
  | cons s rest =>
    have running := (code_split sound code).2.2.1
    rw [off] at running
    rw [go,code] at gone
    cases s with
    | enableIrq irqNum =>
      cases gone
      rw [setCode_code]
      exact .inr (rank_shorter id (by simp [steps,stepsOf]))
    | disableIrq irqNum =>
      cases gone
      rw [setCode_code]
      exact .inr (rank_shorter id (by simp [steps,stepsOf]))
    | outb value port =>
      obtain ⟨o',written,_⟩ := write_sound sound code
      change (m.setCode rest).write value port = _ at gone
      rw [Machine.write,show (m.setCode rest).pics = m.pics from rfl,written] at gone
      cases gone
      refine .inr ?_
      show rank (m.setCode rest).code < _
      rw [setCode_code]
      exact rank_shorter id (by simp [steps,stepsOf])
    | cli =>
      cases gone
      refine .inr ?_
      show rank (m.setCode rest).code < _
      rw [setCode_code]
      exact rank_shorter id (by simp [steps,stepsOf])
    | sti => cases gone; exact .inl rfl
    | iret => cases gone; exact .inl rfl
    | contextSwitch =>
      simp only [safe,Bool.and_eq_true] at running
      obtain ⟨_,resumes,further⟩ := running
      have kept : saved rest = true := by simp [saved,resumes,further]
      cases gone
      refine .inr (rank_wakes rfl ?_)
      by_cases none : m.threads next = []
      · rw [if_pos none,setCode_code]
        exact resumes
      · rw [if_neg none]
        exact (next_resumes sound kept (fun _ => wakes_ne resumes) none).1
    | leave =>
      cases gone
      refine .inr ?_
      by_cases none : next = m.current ∨ m.threads next = []
      · rw [if_pos none,setCode_code]
        exact rank_shorter (fun wakes => by cases wakes) (by simp [steps,stepsOf])
      · rw [if_neg none]
        obtain ⟨other,some⟩ := not_or.mp none
        exact rank_wakes rfl (next_resumes sound rfl (fun same => absurd same other) some).1
    | start =>
      cases gone
      refine .inr (rank_wakes rfl ?_)
      show wakes (Function.update (m.setCode rest).threads next [.iret] next) = true
      rw [Function.update_self]
      rfl

/-- While interrupts are disabled, other events leave the code alone. -/
theorem other_event (sound : Sound k r o m) (off : m.interrupts = false) {e : Event} (noGo : ∀ next, e ≠ .go next)
    (noFault : ∀ rtcs, e ≠ .fault rtcs) :
    ∃ m' r', step m e = .ok m' ∧ Sound k r' o m' ∧ m'.code = m.code ∧ m'.interrupts = false := by
  cases e with
  | raise d => exact ⟨_,_,rfl,raise_sound sound d,rfl,off⟩
  | deliver way => exact ⟨m,r,by rw [step,if_neg (by simp [off])],sound,rfl,off⟩
  | go next => exact absurd rfl (noGo next)
  | call c => exact ⟨m,r,by rw [step,if_neg (code_ne sound off)],sound,rfl,off⟩
  | fault rtcs => exact absurd rfl (noFault rtcs)

theorem range_map_succ (events : Nat → Event) (n : Nat) :
    (List.range (n + 1)).map events = events 0 :: (List.range n).map fun j => events (j + 1) := by
  rw [List.range_succ_eq_map,List.map_cons,List.map_map]
  rfl

/-- Up to the next statement. -/
theorem until_go {i : Nat} (sound : Sound k r o m) (off : m.interrupts = false) (goes : events i = .go next)
    (noFault : ∀ j rtcs, events j ≠ .fault rtcs) :
    ∃ n last r' o', run step m ((List.range n).map events) = .ok last ∧ Sound k r' o' last ∧
      (last.interrupts = true ∨ rank last.code < rank m.code) := by
  induction i generalizing m r events with
  | zero =>
    obtain ⟨last,o',gone,after⟩ := go_sound sound next
    refine ⟨1,last,r,o',?_,after,go_rank sound off gone⟩
    rw [range_map_succ,goes]
    exact (run_cons m _ [] last).mpr ⟨last,gone,rfl⟩
  | succ i ih =>
    by_cases now : ∃ next, events 0 = .go next
    · obtain ⟨next',here⟩ := now
      obtain ⟨last,o',gone,after⟩ := go_sound sound next'
      refine ⟨1,last,r,o',?_,after,go_rank sound off gone⟩
      rw [range_map_succ,here]
      exact (run_cons m _ [] last).mpr ⟨last,gone,rfl⟩
    · obtain ⟨t,r',taken,after,same,still⟩ :=
        other_event sound off (fun next here => now ⟨next,here⟩) (noFault 0)
      obtain ⟨n,last,r'',o'',ran,final,closer⟩ := ih after still goes fun j => noFault (j + 1)
      refine ⟨n + 1,last,r'',o'',?_,final,same ▸ closer⟩
      rw [range_map_succ]
      exact (run_cons m _ _ last).mpr ⟨t,taken,ran⟩

theorem range_map_add (events : Nat → Event) (n n' : Nat) :
    (List.range (n + n')).map events = (List.range n).map events ++ (List.range n').map fun j => events (n + j) := by
  rw [List.range_add,List.map_append,List.map_map]
  rfl

theorem sound_returns (w : Nat ×ₗ Nat) : ∀ {m : Machine} {r : Device → Bool} {o : Owed} {events : Nat → Event},
    Sound k r o m → rank m.code = w → (∀ n, ∃ i next, n ≤ i ∧ events i = .go next) →
    (∀ j rtcs, events j ≠ .fault rtcs) →
    ∃ n last, run step m ((List.range n).map events) = .ok last ∧ last.interrupts = true := by
  induction w using WellFoundedLT.induction with
  | ind w ih =>
    intro m r o events sound same goes noFault
    cases on : m.interrupts with
    | true => exact ⟨0,m,rfl,on⟩
    | false =>
      obtain ⟨i,next,_,here⟩ := goes 0
      obtain ⟨n,t,r',o',ran,after,on' | closer⟩ := until_go sound on here noFault
      · exact ⟨n,t,ran,on'⟩
      · have later : ∀ n', ∃ i next, n' ≤ i ∧ events (n + i) = .go next := by
          intro n'
          obtain ⟨i,next,far,here⟩ := goes (n + n')
          refine ⟨i - n,next,by omega,?_⟩
          rw [show n + (i - n) = i by omega,here]
        obtain ⟨n',last,ran',on'⟩ := ih _ (same ▸ closer) after rfl later fun j => noFault (n + j)
        refine ⟨n + n',last,?_,on'⟩
        rw [range_map_add]
        exact (run_append m last _ _).mpr ⟨t,ran,ran'⟩

end

/-- Wherever a run has come to, while the processor goes on and no process faults,
    interrupts are enabled again, whatever the devices request and to whichever
    stacks it is switched. -/
theorem interrupts_return {found after : Pair} {m : Machine} {before : List Event} {events : Nat → Event}
    (usable : Found found) (initial : i8259Init found = some after) (ran : run step (boot after) before = .ok m)
    (goes : ∀ n, ∃ i next, n ≤ i ∧ events i = .go next) (noFault : ∀ j rtcs, events j ≠ .fault rtcs) :
    ∃ n last, run step m ((List.range n).map events) = .ok last ∧ last.interrupts = true := by
  cases (i8259Init_found usable).symm.trans initial
  obtain ⟨m',r,o,ran',sound⟩ := run_sound (boot_sound (masksFound found)) before
  cases ran'.symm.trans ran
  exact sound_returns _ sound rfl goes noFault

/-- The processor goes on, to one stack after the other. -/
def steadily (i : Nat) : Event := .go i

theorem interrupts_return_pressed : ∃ after m n last, i8259Init firmware = some after ∧
    run step (boot after) pressed = .ok m ∧ m.interrupts = false ∧
    run step m ((List.range n).map steadily) = .ok last ∧ last.interrupts = true := by
  obtain ⟨m,_,_,ran,_⟩ := run_sound (boot_sound (masksFound firmware)) pressed
  have initial := i8259Init_found firmware_found
  obtain ⟨n,last,further,on⟩ := interrupts_return firmware_found initial ran
    (fun n => ⟨n,n,Nat.le_refl n,show steadily n = _ from rfl⟩) fun j rtcs same => by cases same
  refine ⟨_,m,n,last,initial,ran,?_,further,on⟩
  cases ran
  rfl

end MazeOS.Delivery
