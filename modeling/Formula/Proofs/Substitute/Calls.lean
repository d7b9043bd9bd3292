import Formula.Proofs.Substitute.Splicing

/-!
# Calls with exchanged parts

A function is called in a scope of its own, which is alike on both sides wherever its program may
look. So calls do the same on both sides, by induction on the levels that an engine nests, hence all
programs, and what waits for deferred values, of which those that are suspended calls have scopes of
their own as well.
-/

namespace Formula

open Waiting

namespace Machine

open Eval

/-! ### One step of a wait -/

section

variable (hosts : Hosts)

/-- What is done with the entry of a deferred value that is asked for. -/
def awaitEntry (levels fuel id : Nat) : Option Deferred → Eval Value
  | none => Eval.exhausted
  | some (.settled result) => do settle hosts levels fuel (← Eval.ofExcept result)
  | some (.promised p) => do settle hosts levels fuel (← recording id (ask p))
  | some (.suspended scope lang frames on) =>
    recording id (Eval.inScope scope (drive hosts levels fuel ⟨lang, frames, on⟩))

theorem await_succ (levels fuel id : Nat) : await hosts levels (fuel + 1) id =
    (get : Eval World) >>= fun w => awaitEntry hosts levels fuel id w.deferreds[id]? := by
  unfold await
  refine congrArg _ (funext fun w => ?_)
  rcases w.deferreds[id]? with _ | d
  · rfl
  · cases d with
    | _ => rfl

/-- Asking for a deferred value is bounded by what is done with its entry. -/
theorem await_above (id m : Nat) :
    Below ((get : Eval World) >>= fun w => awaitEntry hosts m m id w.deferreds[id]?)
      (await hosts (m + 1) (m + 1) id) := by
  rw [await_succ]
  refine .after fun w => ?_
  obtain ⟨_, hsettle, hdrive⟩ := waiting_below hosts (Nat.le_succ m) m m (Nat.le_refl m)
  rcases w.deferreds[id]? with _ | d
  · exact .refl _
  · cases d with
    | settled r => exact .after hsettle
    | promised p => exact .after hsettle
    | suspended scope lang frames on =>
      exact recording_below id (.inScope scope (hdrive ⟨lang, frames, on⟩))

end

namespace Splice

variable {S : Splice} {m : Mode} {inner : Engine} {lang : Language Value} {depth : Nat}

/-! ### Calls -/

section

variable (hin : S.Enters inner) {f f' : Function Value} (hf : Function.Spliced S f f')

include hin hf

theorem mapItems_follows (i : Nat) {items items' : List Value} (hitems : S.Likes items items') :
    S.Follows m S.Likes (mapItems inner depth f i items)
      fun n => mapItems (engine S.hosts n) depth f' i items' := by
  induction hitems generalizing i with
  | nil => exact .pure .nil
  | cons hx _ ih =>
    exact (hin.call depth hf (.cons hx (.cons (.number _) .nil))).bind fun _ _ hy =>
      (ih (i + 1)).bind fun _ _ hys => .pure (.cons hy hys)

theorem filterItems_follows (i : Nat) {items items' : List Value} (hitems : S.Likes items items') :
    S.Follows m S.Likes (filterItems inner depth f i items)
      fun n => filterItems (engine S.hosts n) depth f' i items' := by
  induction hitems generalizing i with
  | nil => exact .pure .nil
  | cons hx _ ih =>
    refine (hin.call depth hf (.cons hx (.cons (.number _) .nil))).bind fun y y' hy =>
      (ih (i + 1)).bind fun ys ys' hys => ?_
    rw [hy.truthy]
    split
    · exact .pure (.cons hx hys)
    · exact .pure hys

theorem foldItems_follows (i : Nat) {acc acc' : Value} (hacc : S.Like acc acc')
    {items items' : List Value} (hitems : S.Likes items items') :
    S.Follows m S.Like (foldItems inner depth f i acc items)
      fun n => foldItems (engine S.hosts n) depth f' i acc' items' := by
  induction hitems generalizing i acc acc' with
  | nil => exact .pure hacc
  | cons hx _ ih =>
    exact (hin.call depth hf (.cons hacc (.cons hx (.cons (.number _) .nil)))).bind fun _ _ hy =>
      ih (i + 1) hy

end

theorem traversalArguments_like (name : String) {args args' : List Value}
    (hargs : S.Likes args args') (arrayAt : Nat) :
    Alike (fun p p' => Function.Spliced S p.1 p'.1 ∧ S.Likes p.2 p'.2)
      (traversalArguments name args arrayAt) (traversalArguments name args' arrayAt) := by
  have h0 := Operation.arg_lifted hargs 0
  have harray := Operation.arg_lifted hargs arrayAt
  unfold traversalArguments
  generalize Operation.arg args 0 = a, Operation.arg args' 0 = a' at h0
  generalize Operation.arg args arrayAt = b, Operation.arg args' arrayAt = b' at harray
  cases h0 with
  | function hf =>
    cases harray with
    | array hitems => exact .ok ⟨hf, hitems⟩
    | _ => exact .error _
  | _ => exact .error _

theorem enterPromise_follows {p p' : Promise} (hp : p.Lifted (Function.Spliced S) p') :
    S.Follows m S.Like (enterPromise p) fun _ => enterPromise p' := by
  refine (follows_defer (.promised hp)).bind fun id id' hid => ?_
  subst hid
  exact .pure (.deferred id)

section

variable (hin : S.Enters inner)

include hin

theorem traverse_follows (t : Traversal) {args args' : List Value} (hargs : S.Likes args args') :
    S.Follows m S.Like (traverse inner depth t args)
      fun n => traverse (engine S.hosts n) depth t args' := by
  cases t with
  | map =>
    simp only [traverse, (Operation.arg_lifted hargs 1).isUndefined]
    split
    · exact .pure .undefined
    · exact (Mimics.ofExcept (traversalArguments_like "map" hargs 1)).bind fun p p' hp =>
        (mapItems_follows hin hp.1 0 hp.2).bind fun _ _ hys => .pure (.array hys)
  | filter =>
    simp only [traverse, (Operation.arg_lifted hargs 1).isUndefined]
    split
    · exact .pure .undefined
    · exact (Mimics.ofExcept (traversalArguments_like "filter" hargs 1)).bind fun p p' hp =>
        (filterItems_follows hin hp.1 0 hp.2).bind fun _ _ hys => .pure (.array hys)
  | fold =>
    simp only [traverse, (Operation.arg_lifted hargs 2).isUndefined]
    split
    · exact .pure .undefined
    · exact (Mimics.ofExcept (traversalArguments_like "fold" hargs 2)).bind fun p p' hp =>
        foldItems_follows hin hp.1 0 (Operation.arg_lifted hargs 1) hp.2

theorem callNative_follows (hhosts : S.hosts.Uniform) (f : Native) {args args' : List Value}
    (hargs : S.Likes args args') :
    S.Follows m S.Like (callNative inner depth S.hosts f args)
      fun n => callNative (engine S.hosts n) depth S.hosts f args' := by
  have hcongruent := Function.spliced_congruent S
  unfold callNative
  cases f.action with
  | operation op => exact .ofExcept (Operation.apply_lifted hcongruent hargs op)
  | traversal t => exact traverse_follows hin t hargs
  | random =>
    have hscale := Operation.arg_lifted hargs 0
    refine follows_random.bind fun x x' hx => ?_
    dsimp only
    rw [hx, hscale.truthy, hscale.toNumber hcongruent]
    exact .pure (.number _)
  | host key =>
    have hreply := hhosts hcongruent (Function.spliced_reflexive S).refl key hargs
    refine (follows_note hreply.entries).bind fun _ _ _ => ?_
    have hanswer := hreply.answer
    generalize (S.hosts key args).answer = r, (S.hosts key args').answer = r' at hanswer ⊢
    cases hanswer with
    | value hv => exact .pure hv
    | error e => exact .fail e
    | promise hp => exact enterPromise_follows hp
    | call hf hargs => exact hin.call depth hf hargs

/-- The body of a function is entered with the variables of the call, which are alike. -/
theorem enterBody_follows (depth id : Nat) (name : String) (params : List String) {m' : Mode}
    {body body' : Program Value} (captured captured' : Bindings) (hcode : S.Codes m' lang body body')
    {b b' : Bindings} (hb : S.Scopes m' b b') :
    S.Follows m S.Like (enterBody inner depth ⟨id, name, params, body, captured, lang⟩ b)
      fun n => enterBody (engine S.hosts n) depth ⟨id, name, params, body', captured', lang⟩ b' := by
  simp only [enterBody_eq]
  refine follows_inScope hb ((hin.enter depth hcode).bind fun p p' hp => ?_)
  cases hp with
  | done hv => exact .pure hv
  | waiting on hframes =>
    refine follows_scope.bind fun s s' hscopes => ?_
    refine (follows_defer (.suspended on hscopes hframes)).bind fun id id' hid => ?_
    subst hid
    exact .pure (.deferred id)

theorem call_follows (hhosts : S.hosts.Uniform) {f f' : Function Value}
    (hf : Function.Spliced S f f') {args args' : List Value} (hargs : S.Likes args args') :
    S.Follows m S.Like (call inner depth S.hosts f args)
      fun n => call (engine S.hosts n) depth S.hosts f' args' := by
  have hself := hf
  cases hf with
  | native f => exact callNative_follows hin hhosts f hargs
  | defined hc =>
    cases hc with
    | mk hcode hname hparams hbound hleft hright =>
      unfold call
      dsimp only
      split
      · exact enterBody_follows hin _ _ _ _ _ _ hcode
          (definedScope_scopes ⟨hbound, hleft, hright⟩ hname hparams hself hargs)
      · exact .fail _
  | prepared hc =>
    cases hc with
    | mk hcode _ hparams hbound hleft hright =>
      exact enterBody_follows hin depth _ _ _ _ _ hcode
        (Scopes.update ⟨hbound, hleft, hright⟩ (zip_lifted _ hargs) fun p hp =>
          hparams p.1 (List.of_mem_zip hp).1)

end

/-- Programs and functions with exchanged parts do the same, with however many levels the first ones
are run. -/
theorem engine_enters (hhosts : S.hosts.Uniform) (n : Nat) : S.Enters (engine S.hosts n) := by
  induction n with
  | zero => exact ⟨fun _ _ => .exhausted _, fun _ _ _ => .exhausted _⟩
  | succ n ih =>
    refine ⟨fun depth hcode => ?_, fun depth hf hargs => ?_⟩
    · exact (run_follows ih hcode .nil).of_below fun m => .refl _
    · exact (call_follows ih hhosts hf hargs).of_below fun m => .refl _

/-! ### Waiting -/

theorem ask_follows {p p' : Promise} (hp : p.Lifted (Function.Spliced S) p') :
    S.Follows m S.Like (ask p) fun _ => ask p' := by
  induction hp with
  | value hv => exact .pure hv
  | error e => exact .fail e
  | noting hentries _ ih => exact (follows_note hentries).bind fun _ _ _ => ih
  | nested hp _ => exact enterPromise_follows hp

/-- What is recorded on both sides is alike. -/
theorem recording_follows (id : Nat) {x : Eval Value} {y : Nat → Eval Value}
    (h : S.Follows m S.Like x y) :
    S.Follows m S.Like (recording id x) fun n => recording id (y n) := by
  intro w w' o w₁ hw hx ho
  rcases hxw : x w with ⟨o₂, w₂⟩
  have hended : o₂ ≠ .error .exhausted := by
    rintro rfl
    simp only [recording, hxw] at hx
    cases hx
    exact ho rfl
  obtain ⟨o', w₂', hrel, hw₂, N, hN⟩ := h w w' o₂ w₂ hw hxw hended
  cases hrel with
  | ok hv =>
    simp only [recording, hxw] at hx
    cases hx
    refine ⟨_, _, .ok hv, hw₂.record id (.ok hv), N, fun k hk => ?_⟩
    simp only [recording, hN k hk]
  | error s =>
    cases s with
    | exhausted => exact (hended rfl).elim
    | error e =>
      simp only [recording, hxw] at hx
      cases hx
      refine ⟨_, _, .error _, hw₂.record id (.error e), N, fun k hk => ?_⟩
      simp only [recording, hN k hk]

/-- Waiting does the same on both sides: for a deferred value, for a value that may be deferred, for a
suspension. -/
theorem waiting_follows (hhosts : S.hosts.Uniform) (levels fuel : Nat) :
    (∀ (m : Mode) (id : Nat),
      S.Follows m S.Like (await S.hosts levels fuel id) fun n => await S.hosts n n id) ∧
    (∀ (m : Mode) {v v' : Value}, S.Like v v' →
      S.Follows m S.Like (settle S.hosts levels fuel v) fun n => settle S.hosts n n v') ∧
    ∀ {m : Mode} {lang : Language Value} {frames frames' : List Frame} (on : Nat),
      List.Forall₂ (S.Frames m lang) frames frames' →
      S.Follows m S.Like (drive S.hosts levels fuel ⟨lang, frames, on⟩)
        fun n => drive S.hosts n n ⟨lang, frames', on⟩ := by
  induction fuel with
  | zero => exact ⟨fun _ _ => .exhausted _, fun _ _ _ _ => .exhausted _, fun _ _ => .exhausted _⟩
  | succ fuel ih =>
    obtain ⟨hawait, hsettle, hdrive⟩ := ih
    refine ⟨fun m id => ?_, fun m v v' hv => ?_, fun {m lang frames frames'} on hframes => ?_⟩
    · have hget : S.Follows m (S.Worlds m) (get : Eval World) fun _ => get :=
        .once fun _ _ hw => ⟨.ok hw, hw⟩
      rw [await_succ]
      refine (hget.bind fun w w' hw => ?_).of_below fun k => await_above S.hosts id k
      have hentry := hw.entry id
      generalize w.deferreds[id]? = d, w'.deferreds[id]? = d' at hentry
      cases hentry with
      | none => exact .exhausted _
      | some hd =>
        cases hd with
        | settled hr => exact (Mimics.ofExcept hr).bind fun _ _ => hsettle m
        | promised hp => exact (recording_follows id (ask_follows hp)).bind fun _ _ => hsettle m
        | suspended on hscopes hframes =>
          exact recording_follows id (follows_inScope hscopes (hdrive on hframes))
    · have hbelow : ∀ id k, Below (await S.hosts k k id)
          (settle S.hosts (k + 1) (k + 1) (.deferred id)) := fun id k =>
        (waiting_below S.hosts (Nat.le_succ k) k k (Nat.le_refl k)).1 id
      have hpure : S.Follows m S.Like (pure v) fun _ => pure v' := .pure hv
      cases hv with
      | deferred id => exact (hawait m id).of_below (hbelow id)
      | _ => exact hpure.of_below fun _ => .refl _
    · refine Mimics.of_below ((hawait m on).bind fun v v' hv => ?_) fun k =>
        drive_above S.hosts lang frames' on k
      refine (resume_follows (engine_enters hhosts levels) hframes hv).bind fun p p' hp => ?_
      cases hp with
      | done hv => exact hsettle m hv
      | waiting on hframes => exact hdrive on hframes

end Splice

end Machine

end Formula
