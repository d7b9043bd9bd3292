import Formula.Proofs.Waiting.Later

/-!
# Traversals of functions that answer later

Only the machine waits for deferred values, and a traversal calls its function outside of it. So a
deferred result is taken for a value: a filter keeps every item, since deferred values hold, a map
collects what is deferred, and a fold hands it on to the next call.
-/

namespace Formula

namespace Machine

open Eval Waiting

/-- A function whose calls at a depth all give deferred values. -/
def Postpones (inner : Engine) (depth : Nat) (f : Function Value) : Prop :=
  ∀ args w, ∃ id w', inner.call depth f args w = (.ok (.deferred id), w')

variable {hosts later : Hosts} {inner : Engine} {depth n : Nat} {f : Function Value}

/-! ### Functions that answer later -/

theorem postpones_host {key : String} (hkey : ∀ args, ∃ p, (hosts key args).answer = .promise p)
    {g : Native} (hg : g.action = .host key) :
    Postpones (engine hosts (n + 1)) depth (.native g) := by
  intro args w
  obtain ⟨p, hp⟩ := hkey args
  exact ⟨_, _, callNative_promise hg hp w⟩

/-- A function of a formula answers later when its body waits in every scope. -/
theorem postpones_defined {c : Closure Value} (hdepth : depth < c.language.options.maxCallDepth)
    (hbody : ∀ w, ∃ frames on w', (engine hosts n).enter c.language (depth + 1) c.body w =
      (.ok (.waiting frames on), w')) :
    Postpones (engine hosts (n + 1)) depth (.defined c) := by
  intro args w
  obtain ⟨frames, on, w', hwait⟩ := hbody { w with scope := definedScope (.defined c) c args }
  refine ⟨w'.deferreds.size, { w' with
    scope := w.scope
    deferreds := w'.deferreds.push (.suspended w'.scope c.language frames on) }, ?_⟩
  show call (engine hosts n) depth hosts (.defined c) args w = _
  rw [call, if_pos hdepth, enterBody_eq, inScope, bind_of_ok hwait]
  rfl

/-! ### Traversals -/

theorem mapItems_postponed (hf : Postpones inner depth f) (i : Nat) (items : List Value)
    (w : World) : ∃ (ids : List Nat) (w' : World),
      mapItems inner depth f i items w = (.ok (ids.map .deferred), w') ∧
        ids.length = items.length := by
  induction items generalizing i w with
  | nil => exact ⟨[], w, rfl, rfl⟩
  | cons x rest ih =>
    obtain ⟨id, w₁, hcall⟩ := hf [x, .number (Float.ofNat i)] w
    obtain ⟨ids, w₂, hrest, hlength⟩ := ih (i + 1) w₁
    refine ⟨id :: ids, w₂, ?_, congrArg (· + 1) hlength⟩
    rw [mapItems, bind_of_ok hcall, bind_of_ok hrest]
    rfl

theorem filterItems_postponed (hf : Postpones inner depth f) (i : Nat) (items : List Value)
    (w : World) : ∃ w', filterItems inner depth f i items w = (.ok items, w') := by
  induction items generalizing i w with
  | nil => exact ⟨w, rfl⟩
  | cons x rest ih =>
    obtain ⟨id, w₁, hcall⟩ := hf [x, .number (Float.ofNat i)] w
    obtain ⟨w₂, hrest⟩ := ih (i + 1) w₁
    refine ⟨w₂, ?_⟩
    rw [filterItems, bind_of_ok hcall, bind_of_ok hrest]
    rfl

example : (Value.deferred 0).truthy = true := by decide +kernel

theorem foldItems_postponed (hf : Postpones inner depth f) (i : Nat) (acc x : Value)
    (rest : List Value) (w : World) :
    ∃ id w', foldItems inner depth f i acc (x :: rest) w = (.ok (.deferred id), w') := by
  induction rest generalizing i acc x w with
  | nil =>
    obtain ⟨id, w₁, hcall⟩ := hf [acc, x, .number (Float.ofNat i)] w
    refine ⟨id, w₁, ?_⟩
    rw [foldItems, bind_of_ok hcall]
    rfl
  | cons y rest ih =>
    obtain ⟨id, w₁, hcall⟩ := hf [acc, x, .number (Float.ofNat i)] w
    obtain ⟨last, w₂, hrest⟩ := ih (i + 1) (.deferred id) y w₁
    refine ⟨last, w₂, ?_⟩
    rw [foldItems, bind_of_ok hcall]
    exact hrest

/-! ### Functions of the host -/

section

variable {key : String} {g : Native} {promise : List Value → Promise} {value : List Value → Value}

/-- What a call of a function of the host leaves when the answer is promised. -/
def promised (hosts : Hosts) (key : String) (promise : List Value → Promise) (w : World)
    (args : List Value) : World :=
  { w with
    log := w.log ++ (hosts key args).entries
    deferreds := w.deferreds.push (.promised (promise args)) }

/-- Later calls leave the entries of deferred values as they are. -/
theorem promised_kept (calls : List (List Value)) {w : World} {id : Nat} {d : Deferred}
    (h : w.deferreds[id]? = some d) :
    (calls.foldl (promised hosts key promise) w).deferreds[id]? = some d := by
  induction calls generalizing w with
  | nil => exact h
  | cons args calls ih =>
    refine ih ?_
    obtain ⟨hid, hd⟩ := Array.getElem?_eq_some_iff.mp h
    rw [promised, Array.getElem?_push_lt hid, hd]

theorem promised_entry (calls : List (List Value)) (w : World) {k : Nat} {args : List Value}
    (h : calls[k]? = some args) :
    (calls.foldl (promised hosts key promise) w).deferreds[w.deferreds.size + k]? =
      some (.promised (promise args)) := by
  induction calls generalizing w k with
  | nil => cases h
  | cons first calls ih =>
    cases k with
    | zero =>
      obtain rfl : first = args := Option.some.inj h
      exact promised_kept calls Array.getElem?_push_size
    | succ k =>
      have hrest := ih (promised hosts key promise w first) h
      rw [promised, Array.size_push, Nat.add_assoc, Nat.add_comm 1 k] at hrest
      exact hrest

/-- The arguments of the calls for the items from index `i` on. -/
def itemCalls (i : Nat) (items : List Value) : List (List Value) :=
  (items.zipIdx i).map fun (x, k) => [x, .number (Float.ofNat k)]

theorem mapItems_promised (hg : g.action = .host key)
    (hkey : ∀ args, (hosts key args).answer = .promise (promise args)) (i : Nat)
    (items : List Value) (w : World) :
    mapItems (engine hosts (n + 1)) depth (.native g) i items w =
      (.ok ((List.range' w.deferreds.size items.length).map .deferred),
        (itemCalls i items).foldl (promised hosts key promise) w) := by
  induction items generalizing i w with
  | nil => rfl
  | cons x rest ih =>
    have hcall : callNative (engine hosts n) depth hosts g [x, .number (Float.ofNat i)] w = _ :=
      callNative_promise hg (hkey [x, .number (Float.ofNat i)]) w
    have hrest := ih (i + 1) (promised hosts key promise w [x, .number (Float.ofNat i)])
    rw [mapItems]
    refine (bind_of_ok hcall).trans ((bind_of_ok hrest).trans ?_)
    rw [promised, Array.size_push]
    rfl

/-- Filtering with a function that answers at once keeps the items for which its answers hold. -/
theorem filterItems_answered (hg : g.action = .host key)
    (hkey : ∀ args, (hosts key args).answer = .value (value args)) (i : Nat) (items : List Value)
    (w : World) : (filterItems (engine hosts (n + 1)) depth (.native g) i items w).1 =
      .ok (((items.zipIdx i).filter fun (x, k) =>
        (value [x, .number (Float.ofNat k)]).truthy).map Prod.fst) := by
  induction items generalizing i w with
  | nil => rfl
  | cons x rest ih =>
    have hcall : callNative (engine hosts n) depth hosts g [x, .number (Float.ofNat i)] w = _ :=
      callNative_host hg (r := .ok (value [x, .number (Float.ofNat i)]))
        (hkey [x, .number (Float.ofNat i)]) w
    have hrest := ih (i + 1)
      { w with log := w.log ++ (hosts key [x, .number (Float.ofNat i)]).entries }
    rcases hkept : filterItems (engine hosts (n + 1)) depth (.native g) (i + 1) rest
      { w with log := w.log ++ (hosts key [x, .number (Float.ofNat i)]).entries } with ⟨o, w'⟩
    rw [hkept] at hrest
    obtain rfl := hrest
    rw [filterItems]
    refine (congrArg Prod.fst ((bind_of_ok hcall).trans (bind_of_ok hkept))).trans ?_
    rw [List.zipIdx_cons, List.filter_cons]
    split
    · rfl
    · rfl

/-- What a map gives is not waited for, but each of its items settles to the result for it. -/
theorem mapItems_settles (hg : g.action = .host key)
    (hkey : ∀ args, (hosts key args).answer = .promise (promise args)) {items : List Value}
    (w : World) {k : Nat} {x : Value} (hx : items[k]? = some x)
    (hready : ∀ v, (promise [x, .number (Float.ofNat k)]).result = .ok v → v.isDeferred = false) :
    ∃ (ids : List Nat) (w' : World), mapItems (engine hosts (n + 1)) depth (.native g) 0 items w =
        (.ok (ids.map .deferred), w') ∧
      ∃ id, ids[k]? = some id ∧ Settles hosts id w' (promise [x, .number (Float.ofNat k)]).result
        { w' with log := w'.log ++ (promise [x, .number (Float.ofNat k)]).notes } := by
  have hk : k < items.length := (List.getElem?_eq_some_iff.mp hx).1
  have hcall : (itemCalls 0 items)[k]? = some [x, .number (Float.ofNat k)] := by
    simp [itemCalls, hx]
  refine ⟨_, _, mapItems_promised hg hkey 0 items w, w.deferreds.size + k, ?_, ?_⟩
  · rw [List.getElem?_range' hk, Nat.one_mul]
  · exact settles_promised (promised_entry (itemCalls 0 items) w hcall) hready

/-- Filtering with a function that answers later gives what it gives with the function that answers
at once if and only if the answers hold for all items. -/
theorem filterItems_agree_iff (hg : g.action = .host key)
    (hkey : ∀ args, (hosts key args).answer = .value (value args))
    (hlater : ∀ args, ∃ p, (later key args).answer = .promise p) (items : List Value) (w : World) :
    (filterItems (engine later (n + 1)) depth (.native g) 0 items w).1 =
        (filterItems (engine hosts (n + 1)) depth (.native g) 0 items w).1 ↔
      ∀ x k, items[k]? = some x → (value [x, .number (Float.ofNat k)]).truthy := by
  have hpostpones : Postpones (engine later (n + 1)) depth (.native g) := postpones_host hlater hg
  obtain ⟨w', hkept⟩ := filterItems_postponed hpostpones 0 items w
  rw [hkept, filterItems_answered hg hkey]
  constructor
  · intro heq x k hx
    have hlength := congrArg List.length (Except.ok.inj heq)
    rw [List.length_map] at hlength
    have hall := List.length_filter_eq_length_iff.mp (hlength.symm.trans List.length_zipIdx.symm)
    exact hall (x, k) (List.mem_zipIdx_iff_getElem?.mpr hx)
  · intro hall
    rw [List.filter_eq_self.mpr, List.zipIdx_map_fst]
    exact fun p hp => hall p.1 p.2 (List.mem_zipIdx_iff_getElem?.mp hp)

end

end Machine

open Machine Waiting

/-- Where every result is deferred, a filter settles to the array itself and a map to an array of
deferred values, and a fold of some items gives a deferred value. -/
theorem traverse_postponed {hosts : Hosts} {n depth : Nat} {f : Function Value}
    (hf : Postpones (engine hosts n) depth f) (items : List Value) (fuel : Nat) (w : World) :
    (∃ w', (traverse (engine hosts n) depth .filter [.function f, .array items] >>=
      Value.settle hosts (fuel + 1)) w = (.ok (.array items), w')) ∧
    (∃ (ids : List Nat) (w' : World),
      (traverse (engine hosts n) depth .map [.function f, .array items] >>=
        Value.settle hosts (fuel + 1)) w = (.ok (.array (ids.map .deferred)), w') ∧
        ids.length = items.length) ∧
    (items ≠ [] → ∀ init, ∃ id w', traverse (engine hosts n) depth .fold
      [.function f, init, .array items] w = (.ok (.deferred id), w')) := by
  refine ⟨?_, ?_, fun hitems init => ?_⟩
  · obtain ⟨w', hkept⟩ := filterItems_postponed hf 0 items w
    have htraverse : traverse (engine hosts n) depth .filter [.function f, .array items] =
        filterItems (engine hosts n) depth f 0 items >>= fun kept => pure (.array kept) := rfl
    refine ⟨w', ?_⟩
    rw [htraverse, bind_assoc, Eval.bind_of_ok hkept, pure_bind]
    exact congrFun (settle_known (v := .array items) rfl (fuel + 1) fuel) w'
  · obtain ⟨ids, w', hresults, hlength⟩ := mapItems_postponed hf 0 items w
    have htraverse : traverse (engine hosts n) depth .map [.function f, .array items] =
        mapItems (engine hosts n) depth f 0 items >>= fun results => pure (.array results) := rfl
    refine ⟨ids, w', ?_, hlength⟩
    rw [htraverse, bind_assoc, Eval.bind_of_ok hresults, pure_bind]
    exact congrFun (settle_known (v := .array (ids.map .deferred)) rfl (fuel + 1) fuel) w'
  · obtain ⟨x, rest, rfl⟩ := List.exists_cons_of_ne_nil hitems
    exact foldItems_postponed hf 0 init x rest w

/-- The function of the host in the language with an echo. -/
def echo : Native := ⟨100, "echo", .host "echo"⟩

theorem echo_traversed : ∃ w', (traverse (engine laterEchoHosts 1) 0 .filter
      [.function (.native echo), .array [.string "a", .string ""]] >>=
        Value.settle laterEchoHosts 2) (World.start [] 101) =
    (.ok (.array [.string "a", .string ""]), w') :=
  (traverse_postponed (postpones_host (fun _ => ⟨_, rfl⟩) rfl) [.string "a", .string ""] 1
    (World.start [] 101)).1

/-- Hosts that answer later do not give the same where a traversal calls them: the filter keeps the
empty text. -/
theorem filtering_not_deferred : laterEchoHosts.Defers echoHosts ∧
    ∃ e, parseExpr echoLanguage "filter(echo, ['a', ''])" = .ok e ∧
      settledText echoHosts 20 echoLanguage (World.start [] 101) e = some "a" ∧
      settledText laterEchoHosts 20 echoLanguage (World.start [] 101) e = some "a," := by
  refine ⟨fun _ _ => Or.inr ⟨_, rfl, rfl, rfl⟩, ?_⟩
  have hshown : (parseExpr echoLanguage "filter(echo, ['a', ''])").toOption.map (fun e =>
      (settledText echoHosts 20 echoLanguage (World.start [] 101) e,
        settledText laterEchoHosts 20 echoLanguage (World.start [] 101) e)) =
      some (some "a", some "a,") := by
    decide +kernel
  obtain ⟨e, he, hpair⟩ := exists_ok_of_map hshown
  obtain ⟨hnow, hlater⟩ := Prod.mk.inj hpair
  exact ⟨e, he, hnow, hlater⟩

end Formula
