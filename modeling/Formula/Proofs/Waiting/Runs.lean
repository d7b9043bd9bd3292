import Formula.Proofs.Waiting.Tracks

/-!
# Runs of code that may wait

Where the calls and programs that an engine enters are followed, so are the runs of code: a
suspended operand is put in its place and the instruction starts again, a suspended result is
pushed and the code goes on. After a resumption the depth of calls is zero, so it never exceeds
the depth of the run that does not wait.
-/

namespace Formula

namespace Waiting

open Eval Machine

/-- An engine that is followed by the engines of a host at every depth up to its own. -/
structure Transparent (hosts : Hosts) (inner : Engine) : Prop where
  sound : inner.Sound .direct
  knows : inner.Knows
  enter : ∀ {lang depth depth' code}, depth' ≤ depth → lang.Obeys .direct →
    Program.Obeys .direct lang code →
      Tracks hosts lang (inner.enter lang depth code)
        fun m => (engine hosts m).enter lang depth' code
  call : ∀ {depth depth' f args}, depth' ≤ depth → f.Obeys .direct →
    (∀ v ∈ args, v.Obeys .direct) →
      Replies hosts (inner.call depth f args) fun m => (engine hosts m).call depth' f args

section

variable {hosts : Hosts} {inner : Engine} {lang : Language Value} {depth depth' : Nat}
  {rest : Program Value} {stack : List Operand}

/-- Code that is followed on every stack, from every depth up to that of the run. -/
def Continues (hosts : Hosts) (inner : Engine) (lang : Language Value) (depth : Nat)
    (rest : Program Value) : Prop :=
  ∀ stack depth', depth' ≤ depth → Stack.Obeys .direct lang stack →
    Tracks hosts lang (run inner lang depth rest stack)
      fun m => run (engine hosts m) lang depth' rest stack

/-! ### After an instruction -/

theorem tracks_afterStep (hrest : Continues hosts inner lang depth rest) (hd : depth' ≤ depth)
    (hs : Stack.Obeys .direct lang stack) :
    Tracks hosts lang (afterStep inner lang depth rest (.next stack))
      fun m => afterStep (engine hosts m) lang depth' rest (.next stack) := by
  cases stack with
  | nil => exact hrest [] depth' hd hs
  | cons operand below =>
    cases operand with
    | thunk code => exact hrest (.thunk code :: below) depth' hd hs
    | value v =>
      cases v with
      | deferred id => exact tracks_waiting _ _ _
      | _ => exact hrest _ depth' hd hs

/-- A value that was waited for is pushed. -/
theorem tracks_push (hrest : Continues hosts inner lang depth rest) {v : Value}
    (hv : v.Obeys .direct) (hs : Stack.Obeys .direct lang stack) :
    Tracks hosts lang (afterStep inner lang depth rest (.next (.value v :: stack)))
      fun m => resume (engine hosts m) lang 0 [.push stack rest] v := by
  have hresume : (fun m => resume (engine hosts m) lang 0 [.push stack rest] v) =
      fun m => run (engine hosts m) lang 0 rest (.value v :: stack) :=
    funext fun m => resume_single _ _
  rw [hresume]
  cases v with
  | deferred id => exact tracks_waiting _ _ _
  | _ => exact hrest _ 0 (Nat.zero_le depth) (Stack.Obeys.cons hv hs)

/-- A value that is known is used and pushed. -/
theorem tracks_use (hrest : Continues hosts inner lang depth rest) (hd : depth' ≤ depth)
    (use : Use) {v : Value} (hv : v.Obeys .direct) (hs : Stack.Obeys .direct lang stack) :
    Tracks hosts lang
      (use.apply v >>= fun u => afterStep inner lang depth rest (.next (.value u :: stack)))
      fun m => use.apply v >>= fun u =>
        afterStep (engine hosts m) lang depth' rest (.next (.value u :: stack)) :=
  tracks_bind (Blind.use use v) (use_safe use hv) fun _ hu =>
    tracks_afterStep hrest hd (Stack.Obeys.cons hu hs)

/-- A value that was waited for is used and pushed. -/
theorem tracks_used (hrest : Continues hosts inner lang depth rest) (use : Use) {v : Value}
    (hv : v.Obeys .direct) (hs : Stack.Obeys .direct lang stack) :
    Tracks hosts lang
      (use.apply v >>= fun u => afterStep inner lang depth rest (.next (.value u :: stack)))
      fun m => resume (engine hosts m) lang 0 (use.frames ++ [.push stack rest]) v := by
  have hresume : (fun m => resume (engine hosts m) lang 0 (use.frames ++ [.push stack rest]) v) =
      fun m => use.apply v >>= fun u => resume (engine hosts m) lang 0 [.push stack rest] u :=
    funext fun m => resume_use use _ v
  rw [hresume]
  exact tracks_bind (Blind.use use v) (use_safe use hv) fun _ hu => tracks_push hrest hu hs

/-! ### An instruction -/

theorem tracks_perform (hin : Transparent hosts inner) (hlang : lang.Obeys .direct)
    (hrest : Continues hosts inner lang depth rest) (hd : depth' ≤ depth) {p : Plan}
    (hp : p.Obeys .direct lang) :
    Tracks hosts lang (perform inner lang depth p >>= afterStep inner lang depth rest)
      fun m => perform (engine hosts m) lang depth' p >>=
        afterStep (engine hosts m) lang depth' rest := by
  cases p with
  | next stack => exact tracks_afterStep hrest hd hp
  | resolve o use stack =>
    obtain ⟨ho, hs⟩ := hp
    cases o with
    | value v =>
      have hperform : ∀ (e : Engine) (d : Nat),
          perform e lang d (.resolve (.value v) use stack) >>= afterStep e lang d rest =
            use.apply v >>= fun u => afterStep e lang d rest (.next (.value u :: stack)) := by
        intro e d
        rw [perform, resolve, pure_bind, bind_assoc]
        rfl
      simp only [hperform]
      exact tracks_use hrest hd use ho hs
    | thunk code =>
      simp only [perform_thunk]
      refine tracks_entered (use.frames ++ [.push stack rest]) (hin.enter hd hlang ho)
        (hin.sound.enter hlang ho) (hin.knows _ _ _) (fun frames on => ⟨_, rfl⟩) ?_ ?_ ?_
      · intro m frames on
        rw [afterUse, List.append_assoc]
      · exact fun v hv _ => tracks_use hrest hd use hv hs
      · exact fun v hv _ => tracks_used hrest use hv hs
  | call f args stack =>
    obtain ⟨hf, hargs, hs⟩ := hp
    have hperform : ∀ (e : Engine) (d : Nat),
        perform e lang d (.call f args stack) >>= afterStep e lang d rest =
          e.call d f args >>= fun v => afterStep e lang d rest (.next (.value v :: stack)) := by
      intro e d
      rw [perform, bind_assoc]
      rfl
    simp only [hperform]
    refine tracks_called [.push stack rest] (hin.call hd hf hargs)
      (hin.sound.call hf hargs) (fun id => rfl) (fun m id => rfl) ?_ ?_
    · exact fun v hv => tracks_afterStep hrest hd (Stack.Obeys.cons hv hs)
    · exact fun v hv => tracks_push hrest hv hs
  | define name params body stack =>
    obtain ⟨hbody, hs⟩ := hp
    have hperform : ∀ (e : Engine) (d : Nat),
        perform e lang d (.define name params body stack) >>= afterStep e lang d rest =
          define lang name params body >>= fun v =>
            afterStep e lang d rest (.next (.value v :: stack)) := by
      intro e d
      rw [perform, bind_assoc]
      rfl
    simp only [hperform]
    exact tracks_bind (Blind.define lang name params body) (define_safe hlang hbody) fun v hv =>
      tracks_afterStep hrest hd (Stack.Obeys.cons hv hs)

theorem tracks_step (hin : Transparent hosts inner) (hlang : lang.Obeys .direct)
    (hrest : Continues hosts inner lang depth rest) (hd : depth' ≤ depth) {i : Instruction Value}
    (hi : i.Obeys .direct lang) (hs : Stack.Obeys .direct lang stack) :
    Tracks hosts lang (step inner lang depth i stack >>= afterStep inner lang depth rest)
      fun m => step (engine hosts m) lang depth' i stack >>=
        afterStep (engine hosts m) lang depth' rest := by
  have hstep : ∀ (e : Engine) (d : Nat),
      step e lang d i stack >>= afterStep e lang d rest = Eval.scope >>= fun scope =>
        Eval.ofExcept (plan lang scope i stack) >>= fun p =>
          perform e lang d p >>= afterStep e lang d rest := by
    intro e d
    simp only [step, bind_assoc]
  simp only [hstep]
  refine tracks_bind Blind.scope safe_scope fun scope hscope => ?_
  have hplan : Meets (Plan.Obeys .direct lang) Guard.direct.Mild (plan lang scope i stack) :=
    (plan_obeys hlang hscope hi hs).weaken fun _ _ ht => ht.elim
  exact tracks_bind (Blind.ofExcept _) (Keeps.ofExcept hplan) fun p hp =>
    tracks_perform hin hlang hrest hd hp

/-! ### Operands -/

/-- A place of the stack with a value that is not deferred. -/
def Filled (stack : List Operand) (d : Nat) : Prop :=
  ∃ v, stack[d]? = some (.value v) ∧ v.isDeferred = false

theorem Filled.set {c : Nat} {v : Value} (hv : v.isDeferred = false) {d : Nat}
    (hd : Filled stack d) : Filled (stack.set c (.value v)) d := by
  obtain ⟨u, hu, hready⟩ := hd
  by_cases hc : c = d
  · subst hc
    have hlt : c < stack.length := (List.getElem?_eq_some_iff.mp hu).1
    exact ⟨v, by rw [List.getElem?_set_self hlt], hv⟩
  · exact ⟨u, by rw [List.getElem?_set_ne hc, hu], hready⟩

theorem force_value {e : Engine} {d c : Nat} {ds : List Nat} (hc : Filled stack c) :
    force e lang d (c :: ds) stack = force e lang d ds stack := by
  obtain ⟨v, hv, hready⟩ := hc
  rw [force, hv]
  cases v with
  | deferred id => cases hready
  | _ => rfl

/-- Operands that are values already are passed over. -/
theorem force_filled {e : Engine} {d : Nat} {filled : List Nat} (ds : List Nat)
    (h : ∀ c ∈ filled, Filled stack c) :
    force e lang d (filled ++ ds) stack = force e lang d ds stack := by
  induction filled with
  | nil => rfl
  | cons c filled ih =>
    obtain ⟨hc, hrest⟩ := List.forall_mem_cons.mp h
    rw [List.cons_append, force_value hc, ih hrest]

/-- The operands that an instruction needs, from one of them on; those before it are values, so an
instruction that starts again comes back to it. -/
theorem tracks_force (hin : Transparent hosts inner) (hlang : lang.Obeys .direct)
    (hrest : Continues hosts inner lang depth rest) {i : Instruction Value}
    (hi : i.Obeys .direct lang) (ds : List Nat) :
    ∀ filled stack depth', needed i = filled ++ ds → (∀ c ∈ filled, Filled stack c) →
      depth' ≤ depth → Stack.Obeys .direct lang stack →
        Tracks hosts lang (force inner lang depth ds stack >>= afterForce inner lang depth i rest)
          fun m => force (engine hosts m) lang depth' ds stack >>=
            afterForce (engine hosts m) lang depth' i rest := by
  induction ds with
  | nil => exact fun _ stack depth' _ _ hd hs => tracks_step hin hlang hrest hd hi hs
  | cons c ds ih =>
    intro filled stack depth' hneeded hfilled hd hs
    have hsplit : needed i = (filled ++ [c]) ++ ds := by
      rw [hneeded, List.append_assoc, List.singleton_append]
    cases hc : stack[c]? with
    | none =>
      have hfail : ∀ (e : Engine) (d : Nat), force e lang d (c :: ds) stack =
          Eval.fail .stackUnderflow := by
        intro e d
        rw [force, hc]
      simp only [hfail]
      have hmild : Safe .direct (fun _ => False) (Eval.fail .stackUnderflow : Eval Forced) :=
        Keeps.fail fun ht => ht.elim
      exact tracks_bind (Blind.fail _) hmild fun _ h => h.elim
    | some o =>
      cases o with
      | value v =>
        cases hv : v.isDeferred with
        | true =>
          obtain ⟨id, rfl⟩ : ∃ id, v = .deferred id := by
            cases v with
            | deferred id => exact ⟨id, rfl⟩
            | _ => cases hv
          have hsuspended : force inner lang depth (c :: ds) stack =
              pure (.suspended c [] id stack) := by
            rw [force, hc]
          rw [hsuspended]
          exact tracks_waiting _ _ _
        | false =>
          have hval : Filled stack c := ⟨v, hc, hv⟩
          simp only [force_value hval]
          refine ih (filled ++ [c]) stack depth' hsplit ?_ hd hs
          exact List.forall_mem_append.mpr ⟨hfilled, List.forall_mem_singleton.mpr hval⟩
      | thunk code =>
        have hcode : Program.Obeys .direct lang code := hs _ (List.mem_of_getElem? hc)
        have hlt : c < stack.length := (List.getElem?_eq_some_iff.mp hc).1
        -- once the program has a value, the operands up to it are values
        have hset : ∀ v : Value, v.Known →
            ∀ a ∈ filled ++ [c], Filled (stack.set c (.value v)) a := by
          intro v hv
          refine List.forall_mem_append.mpr ⟨fun a ha => (hfilled a ha).set hv.ready, ?_⟩
          exact List.forall_mem_singleton.mpr ⟨v, List.getElem?_set_self hlt, hv.ready⟩
        simp only [force_thunk hc, bind_assoc]
        refine tracks_entered [.fill c stack (i :: rest)] (hin.enter hd hlang hcode)
          (hin.sound.enter hlang hcode) (hin.knows _ _ _) (fun frames on => ⟨_, rfl⟩)
          (fun m frames on => rfl) ?_ ?_
        · exact fun v hv hknown =>
            ih _ _ depth' hsplit (hset v hknown) hd (hs.set c (o := .value v) hv)
        · intro v hv hknown
          have hresume : (fun m => resume (engine hosts m) lang 0 [.fill c stack (i :: rest)] v) =
              fun m => force (engine hosts m) lang 0 ds (stack.set c (.value v)) >>=
                afterForce (engine hosts m) lang 0 i rest := by
            funext m
            rw [resume_single, proceed, run_cons, hsplit, force_filled ds (hset v hknown)]
          rw [hresume]
          exact ih _ _ 0 hsplit (hset v hknown) (Nat.zero_le depth) (hs.set c (o := .value v) hv)

/-! ### Code -/

theorem tracks_finish (hin : Transparent hosts inner) (hlang : lang.Obeys .direct)
    (hd : depth' ≤ depth) (hs : Stack.Obeys .direct lang stack) :
    Tracks hosts lang (finish inner lang depth stack)
      fun m => finish (engine hosts m) lang depth' stack := by
  match stack, hs with
  | [], _ => exact tracks_blind (Blind.fail _)
  | [.value v], _ => exact tracks_blind (Blind.pure _)
  | [.thunk code], hs =>
    have hcode : Program.Obeys .direct lang code := hs.head
    refine tracks_entered [] (hin.enter hd hlang hcode) (hin.sound.enter hlang hcode)
      (hin.knows _ _ _) (fun frames on => ⟨_, rfl⟩) ?_ ?_ ?_
    · intro m frames on
      rw [List.append_nil]
    · exact fun v _ _ => tracks_blind (Blind.pure _)
    · intro v _ hknown
      dsimp only
      rw [hknown.normal]
      exact tracks_blind (Blind.pure _)
  | _ :: _ :: _, _ => exact tracks_blind (Blind.fail _)

/-- Code is followed on every stack. -/
theorem continues (hin : Transparent hosts inner) (hlang : lang.Obeys .direct)
    {code : Program Value} (hcode : ∀ i ∈ code, i.Obeys .direct lang) :
    Continues hosts inner lang depth code := by
  induction code with
  | nil => exact fun stack depth' hd hs => tracks_finish hin hlang hd hs
  | cons i rest ih =>
    obtain ⟨hi, hrest⟩ := List.forall_mem_cons.mp hcode
    intro stack depth' hd hs
    simp only [run_cons]
    exact tracks_force hin hlang (ih hrest) hi (needed i) [] stack depth' rfl
      (List.forall_mem_nil _) hd hs

end

end Waiting

end Formula
