import Mathlib.Logic.Relation

/-!
# Runs of event machines

A machine is a partial step function `f : σ → ε → Option σ`: an event carries
every choice the environment makes, and `f s e = none` says that `s` has no
successor under `e` (the event is not enabled, or the code has no defined
behaviour there). `exec f s es` is the state after the events `es`.

`Always f P s es` says that `P` holds in every state of the run, `EachStep f Q
s es` that `Q` holds of every step. These rules carry the developments:

* `exec_invariant`: what one step keeps, a whole run keeps;
* `exec_map`: a simulation of single steps is one of whole runs;
* `exec_rel`: two machines that fail and succeed together, step by step, do so over whole runs;
* `exec_refines`: if every step of one machine is matched by a run of another, every run is;
* `exec_beside`: a run of two machines side by side is a run of each;
* `always_of_each`: the same for the runs whose steps all meet a condition;
* `always_iff_each`, `always_iff`: where a step keeps `P` exactly when it meets the
  condition, a run has `P` throughout exactly when all its steps meet it;
* `each_of_invariant`, `each_iff`: what holds of every step out of a state with
  the invariant holds of every step of a run;
* `exec_history`: an invariant may speak of the steps made so far.
-/

namespace P2P.Lib

variable {σ ε : Type*} (f : σ → ε → Option σ)

/-- The state after a list of events. -/
def exec : σ → List ε → Option σ
  | s, [] => some s
  | s, e :: es => (f s e).bind fun t => exec t es

/-- `P` holds in every state of the run from `s`. -/
def Always (P : σ → Prop) : σ → List ε → Prop
  | s, [] => P s
  | s, e :: es => P s ∧ ∀ t, f s e = some t → Always P t es

/-- `Q` holds of every step of the run from `s`. -/
def EachStep (Q : σ → ε → σ → Prop) : σ → List ε → Prop
  | _, [] => True
  | s, e :: es => ∀ t, f s e = some t → Q s e t ∧ EachStep Q t es

/-- The steps of the run from `s`, the first one first. -/
def steps : σ → List ε → List (σ × ε × σ)
  | _, [] => []
  | s, e :: es => ((f s e).map fun t => (s, e, t) :: steps t es).getD []

variable {f}

@[simp] theorem exec_nil (s : σ) : exec f s [] = some s := rfl

@[simp] theorem exec_cons (s : σ) (e : ε) (es : List ε) :
    exec f s (e :: es) = (f s e).bind fun t => exec f t es := rfl

theorem exec_step {s t : σ} {e : ε} (h : f s e = some t) (es : List ε) :
    exec f s (e :: es) = exec f t es := by
  rw [exec_cons, h, Option.bind_some]

theorem exec_cons_eq_some {s u : σ} {e : ε} {es : List ε} :
    exec f s (e :: es) = some u ↔ ∃ t, f s e = some t ∧ exec f t es = some u := by
  rw [exec_cons, Option.bind_eq_some_iff]

theorem exec_append (s : σ) (es fs : List ε) :
    exec f s (es ++ fs) = (exec f s es).bind fun t => exec f t fs := by
  induction es generalizing s with
  | nil => rfl
  | cons e es ih =>
    cases h : f s e with
    | none => simp [h]
    | some t => simp [h, ih]

theorem exec_trans {s t u : σ} {es fs : List ε} (h : exec f s es = some t)
    (h' : exec f t fs = some u) : exec f s (es ++ fs) = some u := by
  rw [exec_append, h, Option.bind_some, h']

theorem exec_snoc {s t u : σ} {es : List ε} {e : ε} (h : exec f s es = some t)
    (he : f t e = some u) : exec f s (es ++ [e]) = some u :=
  exec_trans h (exec_step he [])

/-- **Simulation rule.** A map that takes steps of one machine to steps of another takes runs to
runs. -/
theorem exec_map {τ δ : Type*} {g : τ → δ → Option τ} (state : σ → τ) (event : ε → δ)
    (hstep : ∀ s e t, f s e = some t → g (state s) (event e) = some (state t)) {es : List ε}
    {s t : σ} (h : exec f s es = some t) : exec g (state s) (es.map event) = some (state t) := by
  induction es generalizing s with
  | nil =>
    cases h
    rfl
  | cons e es ih =>
    obtain ⟨u, hu, hrun⟩ := exec_cons_eq_some.mp h
    rw [List.map_cons, exec_step (hstep s e u hu)]
    exact ih hrun

theorem each_map {τ δ : Type*} {g : τ → δ → Option τ} {Q : τ → δ → τ → Prop} (state : σ → τ)
    (event : ε → δ) (hstep : ∀ s e t, f s e = some t → g (state s) (event e) = some (state t))
    (hQ : ∀ s e t, Q (state s) (event e) t) {es : List ε} {s t : σ} (h : exec f s es = some t) :
    EachStep g Q (state s) (es.map event) := by
  induction es generalizing s with
  | nil => trivial
  | cons e es ih =>
    obtain ⟨u, hu, hrun⟩ := exec_cons_eq_some.mp h
    intro v hv
    rw [hstep s e u hu, Option.some.injEq] at hv
    subst hv
    exact ⟨hQ s e _, ih hrun⟩

theorem rel_bind {α β γ δ : Type*} {R : α → β → Prop} {S : γ → δ → Prop} {x : Option α}
    {y : Option β} {u : α → Option γ} {v : β → Option δ} (h : Option.Rel R x y)
    (huv : ∀ a b, R a b → Option.Rel S (u a) (v b)) : Option.Rel S (x.bind u) (y.bind v) := by
  cases h with
  | none => exact .none
  | some hab => exact huv _ _ hab

theorem rel_map {α β γ δ : Type*} {R : α → β → Prop} {S : γ → δ → Prop} {x : Option α}
    {y : Option β} {u : α → γ} {v : β → δ} (h : Option.Rel R x y)
    (huv : ∀ a b, R a b → S (u a) (v b)) : Option.Rel S (x.map u) (y.map v) := by
  cases h with
  | none => exact .none
  | some hab => exact .some (huv _ _ hab)

theorem rel_some {α β : Type*} {R : α → β → Prop} {x : Option α} {y : Option β} {a : α}
    (h : Option.Rel R x y) (hx : x = some a) : ∃ b, y = some b ∧ R a b := by
  subst hx
  cases h with
  | some hab => exact ⟨_, rfl, hab⟩

theorem exists_of_rel {α β : Type*} {R : α → β → Prop} {x : Option α} {y : Option β} {b : β}
    (h : Option.Rel R x y) (hy : y = some b) : ∃ a, x = some a ∧ R a b := by
  subst hy
  cases h with
  | some hab => exact ⟨_, rfl, hab⟩

/-- **Lockstep rule.** -/
theorem exec_rel {τ : Type*} {g : τ → ε → Option τ} {R : σ → τ → Prop}
    (hstep : ∀ s t e, R s t → Option.Rel R (f s e) (g t e)) {es : List ε} {s : σ} {t : τ}
    (h : R s t) : Option.Rel R (exec f s es) (exec g t es) := by
  induction es generalizing s t with
  | nil => exact .some h
  | cons e es ih => exact rel_bind (hstep s t e h) fun _ _ hab => ih hab

/-- **Refinement rule.** Every step is matched by a run of events of the kind `Ok`. -/
theorem exec_refines {τ δ : Type*} {g : τ → δ → Option τ} {R : σ → τ → Prop} {Ok : δ → Prop}
    {es : List ε} {s s' : σ} {t : τ}
    (hstep : ∀ s t e s', e ∈ es → R s t → f s e = some s' →
      ∃ ds t', (∀ d ∈ ds, Ok d) ∧ exec g t ds = some t' ∧ R s' t')
    (h : R s t) (hrun : exec f s es = some s') :
    ∃ ds t', (∀ d ∈ ds, Ok d) ∧ exec g t ds = some t' ∧ R s' t' := by
  induction es generalizing s t with
  | nil =>
    cases hrun
    exact ⟨[], t, fun _ hd => absurd hd List.not_mem_nil, rfl, h⟩
  | cons e es ih =>
    obtain ⟨u, hu, hrun⟩ := exec_cons_eq_some.mp hrun
    obtain ⟨ds, t', hok, hds, ht'⟩ := hstep s t e u List.mem_cons_self h hu
    obtain ⟨ds', t'', hok', hds', ht''⟩ :=
      ih (fun s t e s' he => hstep s t e s' (List.mem_cons_of_mem _ he)) ht' hrun
    exact ⟨ds ++ ds', t'', List.forall_mem_append.mpr ⟨hok, hok'⟩, exec_trans hds hds', ht''⟩

/-- Two machines side by side: an event is one of either. -/
def beside {τ δ : Type*} (f : σ → ε → Option σ) (g : τ → δ → Option τ) (s : σ × τ) :
    ε ⊕ δ → Option (σ × τ)
  | .inl e => (f s.1 e).map fun t => (t, s.2)
  | .inr d => (g s.2 d).map fun t => (s.1, t)

theorem exec_inr {τ δ : Type*} {g : τ → δ → Option τ} {ds : List δ} {t u : τ} (s : σ)
    (h : exec g t ds = some u) : exec (beside f g) (s, t) (ds.map Sum.inr) = some (s, u) := by
  refine exec_map (fun t => (s, t)) Sum.inr (fun t d u hstep => ?_) h
  rw [beside, hstep, Option.map_some]

/-- **Interleaving rule.** A run of two machines side by side is a run of each. -/
theorem exec_beside {τ δ : Type*} {g : τ → δ → Option τ} {es : List (ε ⊕ δ)} {s s' : σ × τ}
    (h : exec (beside f g) s es = some s') :
    exec f s.1 (es.filterMap Sum.getLeft?) = some s'.1 ∧
      exec g s.2 (es.filterMap Sum.getRight?) = some s'.2 := by
  induction es generalizing s with
  | nil =>
    cases h
    exact ⟨rfl, rfl⟩
  | cons e es ih =>
    obtain ⟨t, ht, hrun⟩ := exec_cons_eq_some.mp h
    obtain ⟨hl, hr⟩ := ih hrun
    cases e with
    | inl e =>
      obtain ⟨u, hu, rfl⟩ := Option.map_eq_some_iff.mp ht
      exact ⟨(exec_step hu _).trans hl, hr⟩
    | inr d =>
      obtain ⟨u, hu, rfl⟩ := Option.map_eq_some_iff.mp ht
      exact ⟨hl, (exec_step hu _).trans hr⟩

/-- **Invariant rule.** What every step by an event of the kind `Ok` keeps holds after every run
of such events. -/
theorem exec_invariant_of (Ok : ε → Prop) (Inv : σ → Prop)
    (hstep : ∀ s e t, Ok e → Inv s → f s e = some t → Inv t) :
    ∀ {es : List ε} {s t : σ}, (∀ e ∈ es, Ok e) → Inv s → exec f s es = some t → Inv t := by
  intro es
  induction es with
  | nil =>
    intro s t _ hs h
    cases h
    exact hs
  | cons e es ih =>
    intro s t hok hs h
    obtain ⟨u, hu, hrun⟩ := exec_cons_eq_some.mp h
    have hu' := hstep s e u (hok e List.mem_cons_self) hs hu
    exact ih (fun e' he' => hok e' (List.mem_cons_of_mem e he')) hu' hrun

theorem exec_invariant (Inv : σ → Prop) (hstep : ∀ s e t, Inv s → f s e = some t → Inv t)
    {es : List ε} {s t : σ} (hs : Inv s) (h : exec f s es = some t) : Inv t :=
  exec_invariant_of (fun _ => True) Inv (fun s e t _ => hstep s e t) (fun _ _ => trivial) hs h

/-- **History rule.** An invariant of the state and of the steps made so far that every step keeps
holds after every run. -/
theorem exec_history (Inv : List (σ × ε × σ) → σ → Prop)
    (hstep : ∀ hist s e t, Inv hist s → f s e = some t → Inv (hist ++ [(s, e, t)]) t)
    {es : List ε} {s t : σ} (hs : Inv [] s) (h : exec f s es = some t) : Inv (steps f s es) t := by
  -- the steps made before come first
  have hgen : ∀ hist s, Inv hist s → exec f s es = some t → Inv (hist ++ steps f s es) t := by
    clear hs h s
    induction es with
    | nil =>
      intro hist s hs h
      cases h
      rwa [steps, List.append_nil]
    | cons e es ih =>
      intro hist s hs h
      obtain ⟨u, hu, hrun⟩ := exec_cons_eq_some.mp h
      have hrest := ih _ _ (hstep hist s e u hs hu) hrun
      rw [List.append_assoc] at hrest
      rw [steps, hu]
      exact hrest
  exact hgen [] s hs h

theorem Always.head {P : σ → Prop} {s : σ} {es : List ε} (h : Always f P s es) : P s := by
  cases es with
  | nil => exact h
  | cons _ _ => exact h.1

theorem always_step {P : σ → Prop} {s t : σ} {e : ε} {es : List ε} (h : f s e = some t) :
    Always f P s (e :: es) ↔ P s ∧ Always f P t es := by
  rw [Always, h]
  simp only [Option.some.injEq, forall_eq']

theorem each_step {Q : σ → ε → σ → Prop} {s t : σ} {e : ε} {es : List ε} (h : f s e = some t) :
    EachStep f Q s (e :: es) ↔ Q s e t ∧ EachStep f Q t es := by
  rw [EachStep, h]
  simp only [Option.some.injEq, forall_eq']

theorem Always.imp {P Q : σ → Prop} (h : ∀ s, P s → Q s) {s : σ} {es : List ε}
    (hP : Always f P s es) : Always f Q s es := by
  induction es generalizing s with
  | nil => exact h s hP
  | cons e es ih => exact ⟨h s hP.1, fun t ht => ih (hP.2 t ht)⟩

theorem always_and {P Q : σ → Prop} {s : σ} {es : List ε} :
    Always f (fun s => P s ∧ Q s) s es ↔ Always f P s es ∧ Always f Q s es := by
  constructor
  · exact fun h => ⟨h.imp fun _ hs => hs.1, h.imp fun _ hs => hs.2⟩
  · rintro ⟨hP, hQ⟩
    induction es generalizing s with
    | nil => exact ⟨hP, hQ⟩
    | cons e es ih => exact ⟨⟨hP.1, hQ.1⟩, fun t ht => ih (hP.2 t ht) (hQ.2 t ht)⟩

theorem always_congr {W P Q : σ → Prop} (hW : ∀ s e t, W s → f s e = some t → W t)
    (hPQ : ∀ s, W s → (P s ↔ Q s)) {s : σ} {es : List ε} (hs : W s) :
    Always f P s es ↔ Always f Q s es := by
  induction es generalizing s with
  | nil => exact hPQ s hs
  | cons e es ih =>
    exact and_congr (hPQ s hs) (forall₂_congr fun t ht => ih (hW s e t hs ht))

theorem Always.of_exec {P : σ → Prop} {s t : σ} {es fs : List ε}
    (h : Always f P s (es ++ fs)) (hrun : exec f s es = some t) : P t := by
  induction es generalizing s with
  | nil =>
    cases hrun
    exact h.head
  | cons e es ih =>
    obtain ⟨u, hu, hrun⟩ := exec_cons_eq_some.mp hrun
    exact ih (h.2 u hu) hrun

theorem EachStep.of_exec {Q : σ → ε → σ → Prop} {s t u : σ} {es fs : List ε} {e : ε}
    (h : EachStep f Q s (es ++ e :: fs)) (hrun : exec f s es = some t) (hstep : f t e = some u) :
    Q t e u := by
  induction es generalizing s with
  | nil =>
    cases hrun
    exact (h u hstep).1
  | cons e' es ih =>
    obtain ⟨v, hv, hrun⟩ := exec_cons_eq_some.mp hrun
    exact ih (h v hv).2 hrun

theorem each_append {Q : σ → ε → σ → Prop} {s t : σ} {es fs : List ε}
    (h : exec f s es = some t) :
    EachStep f Q s (es ++ fs) ↔ EachStep f Q s es ∧ EachStep f Q t fs := by
  induction es generalizing s with
  | nil =>
    cases h
    exact (and_iff_right trivial).symm
  | cons e es ih =>
    obtain ⟨u, hu, hrun⟩ := exec_cons_eq_some.mp h
    rw [List.cons_append, each_step hu, each_step hu, ih hrun, and_assoc]

/-- **Guarded invariant rule.** If the steps that meet `C` keep `Inv` and have
`Q`, then in a run whose steps all meet `C` every state has `Inv` and every step
has `Q`. -/
theorem always_of_each {Inv : σ → Prop} {C Q : σ → ε → σ → Prop}
    (hstep : ∀ s e t, Inv s → f s e = some t → C s e t → Inv t ∧ Q s e t) :
    ∀ {es : List ε} {s : σ}, Inv s → EachStep f C s es →
      Always f Inv s es ∧ EachStep f Q s es := by
  intro es
  induction es with
  | nil => intro s hs _; exact ⟨hs, trivial⟩
  | cons e es ih =>
    intro s hs hC
    have next : ∀ t, f s e = some t →
        (Inv t ∧ Q s e t) ∧ Always f Inv t es ∧ EachStep f Q t es := by
      intro t ht
      obtain ⟨hc, hrest⟩ := hC t ht
      have hk := hstep s e t hs ht hc
      exact ⟨hk, ih hk.1 hrest⟩
    exact ⟨⟨hs, fun t ht => (next t ht).2.1⟩, fun t ht => ⟨(next t ht).1.2, (next t ht).2.2⟩⟩

theorem each_of_events {Ok : ε → Prop} :
    ∀ {es : List ε} {s : σ}, (∀ e ∈ es, Ok e) → EachStep f (fun _ e _ => Ok e) s es := by
  intro es
  induction es with
  | nil => intro s _; trivial
  | cons e es ih =>
    intro s h t _
    exact ⟨h e List.mem_cons_self, ih fun e' he' => h e' (List.mem_cons_of_mem e he')⟩

theorem each_of_invariant {W : σ → Prop} {Q : σ → ε → σ → Prop}
    (hW : ∀ s e t, W s → f s e = some t → W t) (hQ : ∀ s e t, W s → f s e = some t → Q s e t) :
    ∀ {es : List ε} {s : σ}, W s → EachStep f Q s es := by
  intro es
  induction es with
  | nil => intro s _; trivial
  | cons e es ih =>
    intro s hs t ht
    exact ⟨hQ s e t hs ht, ih (hW s e t hs ht)⟩

/-- **Exactness rule.** Let every step out of a state with `P` keep `W`. If a step out of a state
with `W` and `P` has `P` and `Q` exactly when it meets `C`, then a run has `P`
throughout and `Q` at every step exactly when all its steps meet `C`. -/
theorem always_iff_each {W P : σ → Prop} {Q C : σ → ε → σ → Prop}
    (hW : ∀ s e t, W s → P s → f s e = some t → W t)
    (hstep : ∀ s e t, W s → P s → f s e = some t → (P t ∧ Q s e t ↔ C s e t)) :
    ∀ {es : List ε} {s : σ}, W s → P s →
      (Always f P s es ∧ EachStep f Q s es ↔ EachStep f C s es) := by
  intro es
  induction es with
  | nil => intro s _ hP; exact ⟨fun _ => trivial, fun _ => ⟨hP, trivial⟩⟩
  | cons e es ih =>
    intro s hw hP
    constructor
    · rintro ⟨⟨-, hA⟩, hQ⟩ t ht
      have hPt : P t := Always.head (hA t ht)
      obtain ⟨hq, hQ'⟩ := hQ t ht
      exact ⟨(hstep s e t hw hP ht).mp ⟨hPt, hq⟩, (ih (hW s e t hw hP ht) hPt).mp ⟨hA t ht, hQ'⟩⟩
    · intro hC
      have next : ∀ t, f s e = some t → Q s e t ∧ Always f P t es ∧ EachStep f Q t es := by
        intro t ht
        obtain ⟨hc, hrest⟩ := hC t ht
        obtain ⟨hPt, hq⟩ := (hstep s e t hw hP ht).mpr hc
        exact ⟨hq, (ih (hW s e t hw hP ht) hPt).mpr hrest⟩
      exact ⟨⟨hP, fun t ht => (next t ht).2.1⟩, fun t ht => ⟨(next t ht).1, (next t ht).2.2⟩⟩

theorem always_iff {W P : σ → Prop} {C : σ → ε → σ → Prop}
    (hW : ∀ s e t, W s → P s → f s e = some t → W t)
    (hstep : ∀ s e t, W s → P s → f s e = some t → (P t ↔ C s e t)) {es : List ε} {s : σ}
    (hs : W s) (hP : P s) : Always f P s es ↔ EachStep f C s es := by
  have hiff : Always f P s es ∧ EachStep f (fun _ _ _ => True) s es ↔ EachStep f C s es :=
    always_iff_each hW
      (fun s e t hw hp h => (and_iff_left trivial).trans (hstep s e t hw hp h)) hs hP
  rw [← hiff, and_iff_left]
  exact each_of_invariant (W := fun _ => True) (fun _ _ _ _ _ => trivial) (fun _ _ _ _ _ => trivial)
    trivial

theorem EachStep.imp {W : σ → Prop} {Q C : σ → ε → σ → Prop}
    (hW : ∀ s e t, W s → f s e = some t → W t)
    (hQC : ∀ s e t, W s → f s e = some t → Q s e t → C s e t) :
    ∀ {es : List ε} {s : σ}, EachStep f Q s es → W s → EachStep f C s es := by
  intro es
  induction es with
  | nil => intro s _ _; trivial
  | cons e es ih =>
    intro s h hs t ht
    obtain ⟨hq, hrest⟩ := h t ht
    exact ⟨hQC s e t hs ht hq, ih hrest (hW s e t hs ht)⟩

theorem each_iff {W : σ → Prop} {Q C : σ → ε → σ → Prop}
    (hW : ∀ s e t, W s → f s e = some t → W t)
    (hQC : ∀ s e t, W s → f s e = some t → (Q s e t ↔ C s e t)) :
    ∀ {es : List ε} {s : σ}, W s → (EachStep f Q s es ↔ EachStep f C s es) := by
  intro es s hs
  exact ⟨fun h => h.imp hW (fun s e t hs h => (hQC s e t hs h).mp) hs,
    fun h => h.imp hW (fun s e t hs h => (hQC s e t hs h).mpr) hs⟩

end P2P.Lib
