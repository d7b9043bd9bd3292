import Formula.Proofs.Machine.Known
import Formula.Proofs.Waiting.Direct
import Formula.Proofs.Waiting.Promised

/-!
# Following an evaluation that does not wait

An evaluation in which nothing is deferred is followed by one in which what it calls may be: the
second ends with the same result, at once or when it is gone on with. Following is carried along
`do` blocks; what comes after a suspended part becomes a frame.
-/

namespace Formula

namespace Waiting

open Eval Machine

/-- A result that is followed: a value that is not deferred, or an error other than that of calls
nested too deep. -/
def Proper : Except EvalError Value → Prop
  | .ok v => v.isDeferred = false
  | .error e => ∀ limit, e ≠ .callDepth limit

section

variable (hosts : Hosts) (lang : Language Value)

/-- A run that is followed wherever it ends with a proper result. -/
def Tracks (x : Eval Progress) (y : Nat → Eval Progress) : Prop :=
  ∀ w w' r w₁, w.Sound .direct → World.Like False w w' → x w = (ended r, w₁) → Proper r →
    Follows hosts lang y w' r w₁

/-- A call that is answered wherever it has a proper result. -/
def Replies (x : Eval Value) (y : Nat → Eval Value) : Prop :=
  ∀ w w' r w₁, w.Sound .direct → World.Like False w w' → x w = (result r, w₁) → Proper r →
    Answers hosts y w' r w₁

end

variable {hosts : Hosts} {lang : Language Value} {w w' w₁ : World} {r : Except EvalError Value}

theorem ended_inv {s : Stop EvalError} (h : .error s = ended r) : ∃ e, r = .error e ∧ s = .error e := by
  cases r with
  | ok v => cases h
  | error e => exact ⟨e, rfl, Except.error.inj h⟩

theorem Follows.congr {y y' : Nat → Eval Progress} (h : Follows hosts lang y' w' r w₁)
    (hy : ∀ o w₂, Eventually y' w' o w₂ → Eventually y w o w₂) : Follows hosts lang y w r w₁ := by
  cases h with
  | ends hlike hrun => exact .ends hlike (hy _ _ hrun)
  | waits hrun hpending => exact .waits (hy _ _ hrun) hpending

theorem Answers.congr {y y' : Nat → Eval Value} (h : Answers hosts y' w' r w₁)
    (hy : ∀ o w₂, Eventually y' w' o w₂ → Eventually y w o w₂) : Answers hosts y w r w₁ := by
  cases h with
  | now hlike hrun => exact .now hlike (hy _ _ hrun)
  | later hrun hsettles => exact .later (hy _ _ hrun) hsettles

/-- One level more changes nothing in the end. -/
theorem Eventually.of_succ {α : Type} {y y' : Nat → Eval α} (h : ∀ m, y (m + 1) w = y' m w)
    {o : Except (Stop EvalError) α} {w₂ : World} (hy : Eventually y' w o w₂) :
    Eventually y w o w₂ := by
  obtain ⟨N, hy⟩ := hy
  refine ⟨N + 1, fun m hm => ?_⟩
  obtain ⟨n, rfl⟩ : ∃ n, m = n + 1 := ⟨m - 1, by omega⟩
  exact (h n).trans (hy n (by omega))

theorem Eventually.const {α : Type} {x : Eval α} {o : Except (Stop EvalError) α}
    (h : x w = (o, w')) : Eventually (fun _ => x) w o w' := ⟨0, fun _ _ => h⟩

theorem Eventually.pure {α : Type} {y : Nat → Eval α} {a : α} (h : ∀ m, y m = Pure.pure a)
    (w : World) : Eventually y w (.ok a) w := ⟨0, fun m _ => congrFun (h m) w⟩

theorem Eventually.bind_ok {α β : Type} {y : Nat → Eval α} {a : α} {f : Nat → α → Eval β}
    (h : Eventually y w (.ok a) w') {o : Except (Stop EvalError) β} {w₂ : World}
    (hf : Eventually (fun m => f m a) w' o w₂) : Eventually (fun m => y m >>= f m) w o w₂ := by
  obtain ⟨N, h⟩ := h
  obtain ⟨M, hf⟩ := hf
  exact ⟨N + M, fun m hm => (bind_of_ok (h m (by omega))).trans (hf m (by omega))⟩

theorem Eventually.bind_error {α β : Type} {y : Nat → Eval α} {s : Stop EvalError}
    (f : Nat → α → Eval β) (h : Eventually y w (.error s) w') :
    Eventually (fun m => y m >>= f m) w (.error s) w' := by
  obtain ⟨N, h⟩ := h
  exact ⟨N, fun m hm => bind_of_error (h m hm)⟩

theorem waiting_ne_ended (frames : List Frame) (on : Nat) :
    (pure (.waiting frames on) : Eval Progress) w ≠ (ended r, w₁) := by
  intro h
  cases r with
  | ok v => cases h
  | error e => cases h

theorem tracks_waiting (frames : List Frame) (on : Nat) (y : Nat → Eval Progress) :
    Tracks hosts lang (pure (.waiting frames on)) y := by
  intro w w' r w₁ _ _ hx _
  exact (waiting_ne_ended frames on hx).elim

/-- What does not depend on deferred values is the same for both. -/
theorem tracks_blind {x : Eval Progress} (hx : Blind False x) : Tracks hosts lang x fun _ => x := by
  intro w w' r w₁ _ hlike hxw _
  obtain ⟨hout, hlike'⟩ := hx w w' hlike
  rw [hxw] at hout hlike'
  exact .ends hlike' (.const (Prod.ext hout rfl))

theorem tracks_bind {α : Type} {good : α → Prop} {b : Eval α} {f : α → Eval Progress}
    {f' : Nat → α → Eval Progress} (hb : Blind False b) (hs : Safe .direct good b)
    (hf : ∀ a, good a → Tracks hosts lang (f a) fun m => f' m a) :
    Tracks hosts lang (b >>= f) fun m => b >>= f' m := by
  intro w w' r w₁ hw hlike hx hr
  obtain ⟨hout, hlike'⟩ := hb w w' hlike
  have hsafe := hs w hw
  rcases bind_cases b f w with ⟨a, w₀, hbw, hxw⟩ | ⟨s, w₀, hbw, hxw⟩ <;>
    rw [hxw] at hx <;> rw [hbw] at hout hlike' hsafe
  · have hbw' : b w' = (.ok a, (b w').2) := Prod.ext hout rfl
    exact (hf a hsafe.2 w₀ _ r w₁ hsafe.1 hlike' hx hr).congr fun o w₂ h =>
      .bind_ok (.const hbw') h
  · obtain ⟨hs', rfl⟩ := Prod.mk.inj hx
    obtain ⟨e, rfl, rfl⟩ := ended_inv hs'
    have hbw' : b w' = (.error (.error e), (b w').2) := Prod.ext hout rfl
    exact .ends hlike' (.bind_error _ (.const hbw'))

/-! ### Evaluations that are suspended -/

/-- After a program that was entered comes what goes on with it, or a frame that does. -/
theorem tracks_entered {x : Eval Progress} {y : Nat → Eval Progress} {f : Progress → Eval Progress}
    {f' : Nat → Progress → Eval Progress} (extra : List Frame) (hx : Tracks hosts lang x y)
    (hs : Safe .direct (Progress.Sound .direct lang) x) (hk : Gives Progress.Known x)
    (hwaits : ∀ frames on, ∃ fs, f (.waiting frames on) = pure (.waiting fs on))
    (hwaits' : ∀ m frames on, f' m (.waiting frames on) = pure (.waiting (frames ++ extra) on))
    (hf : ∀ v, v.Obeys .direct → v.Known →
      Tracks hosts lang (f (.done v)) fun m => f' m (.done v))
    (hresume : ∀ v, v.Obeys .direct → v.Known →
      Tracks hosts lang (f (.done v)) fun m => resume (engine hosts m) lang 0 extra v) :
    Tracks hosts lang (x >>= f) fun m => y m >>= f' m := by
  intro w w' r w₁ hw hlike hxf hr
  have hsafe := hs w hw
  have hknown := (hk w trivial).2
  rcases bind_cases x f w with ⟨p, w₀, hxw, hxfw⟩ | ⟨s, w₀, hxw, hxfw⟩ <;>
    rw [hxfw] at hxf <;> rw [hxw] at hsafe hknown
  · cases p with
    | waiting frames on =>
      obtain ⟨fs, hfs⟩ := hwaits frames on
      rw [hfs] at hxf
      exact (waiting_ne_ended fs on hxf).elim
    | done v =>
      have hok : Proper (.ok v) := hknown.ready
      cases hx w w' (.ok v) w₀ hw hlike hxw hok with
      | @ends w₀' hlike' hrun =>
        exact (hf v hsafe.2 hknown w₀ w₀' r w₁ hsafe.1 hlike' hxf hr).congr fun o w₂ h =>
          .bind_ok hrun h
      | @waits frames on w₀' hrun hpending =>
        have hwait : Eventually (fun m => f' m (.waiting frames on)) w₀'
            (.ok (.waiting (frames ++ extra) on)) w₀' :=
          .pure (fun m => hwaits' m frames on) w₀'
        refine .waits (.bind_ok hrun hwait) (hpending.append fun w₃ hw₃ => ?_)
        exact hresume v hsafe.2 hknown w₀ w₃ r w₁ hsafe.1 hw₃ hxf hr
  · obtain ⟨hs', rfl⟩ := Prod.mk.inj hxf
    obtain ⟨e, rfl, rfl⟩ := ended_inv hs'
    cases hx w w' (.error e) w₀ hw hlike hxw hr with
    | ends hlike' hrun => exact .ends hlike' (.bind_error _ hrun)
    | @waits frames on w₀' hrun hpending =>
      have hwait : Eventually (fun m => f' m (.waiting frames on)) w₀'
          (.ok (.waiting (frames ++ extra) on)) w₀' :=
          .pure (fun m => hwaits' m frames on) w₀'
      exact .waits (.bind_ok hrun hwait) (hpending.append_error extra)

/-- After a call comes what goes on with its value, or a frame that waits for it. -/
theorem tracks_called {x : Eval Value} {y : Nat → Eval Value} {f : Value → Eval Progress}
    {f' : Nat → Value → Eval Progress} (extra : List Frame) (hx : Replies hosts x y)
    (hs : Safe .direct (Value.Obeys .direct) x)
    (hdeferred : ∀ id, f (.deferred id) = pure (.waiting extra id))
    (hwaits : ∀ m id, f' m (.deferred id) = pure (.waiting extra id))
    (hf : ∀ v, v.Obeys .direct → Tracks hosts lang (f v) fun m => f' m v)
    (hresume : ∀ v, v.Obeys .direct →
      Tracks hosts lang (f v) fun m => resume (engine hosts m) lang 0 extra v) :
    Tracks hosts lang (x >>= f) fun m => y m >>= f' m := by
  intro w w' r w₁ hw hlike hxf hr
  have hsafe := hs w hw
  have hwait : ∀ id (w₀ : World), Eventually (fun m => f' m (.deferred id)) w₀
      (.ok (.waiting extra id)) w₀ := fun id w₀ => .pure (fun m => hwaits m id) w₀
  rcases bind_cases x f w with ⟨v, w₀, hxw, hxfw⟩ | ⟨s, w₀, hxw, hxfw⟩ <;>
    rw [hxfw] at hxf <;> rw [hxw] at hsafe
  · have hok : Proper (.ok v) := by
      cases v with
      | deferred id => exact (waiting_ne_ended _ _ (hdeferred id ▸ hxf)).elim
      | _ => rfl
    cases hx w w' (.ok v) w₀ hw hlike hxw hok with
    | @now w₀' hlike' hrun =>
      exact (hf v hsafe.2 w₀ w₀' r w₁ hsafe.1 hlike' hxf hr).congr fun o w₂ h => .bind_ok hrun h
    | @later id w₀' hrun hsettles =>
      have hpending : Pending hosts lang ([] ++ extra) id w₀' r w₁ :=
        (pending_of_settles hsettles).append fun w₃ hw₃ =>
          hresume v hsafe.2 w₀ w₃ r w₁ hsafe.1 hw₃ hxf hr
      exact .waits (.bind_ok hrun (hwait id w₀')) hpending
  · obtain ⟨hs', rfl⟩ := Prod.mk.inj hxf
    obtain ⟨e, rfl, rfl⟩ := ended_inv hs'
    cases hx w w' (.error e) w₀ hw hlike hxw hr with
    | now hlike' hrun => exact .ends hlike' (.bind_error _ hrun)
    | @later id w₀' hrun hsettles =>
      have hpending : Pending hosts lang ([] ++ extra) id w₀' (.error e) w₀ :=
        (pending_of_settles hsettles).append_error extra
      exact .waits (.bind_ok hrun (hwait id w₀')) hpending

end Waiting

end Formula
