import DbToy.Lib.Interface

/-!
# Runs of a server

A server answers one call after the other from its state, and may fail.  `runAll` is a whole run,
which ends at the first failure.

* `Along`: a condition on calls that holds wherever the run makes one.
* `runAll_related`: two servers that answer each call alike, as far as it meets the condition,
  answer a run alike that meets it all along.
* `runAll_filter`: calls that change nothing can be left out.
* `runAll_preserves`: what every answered call keeps is kept by every run.
* `runAll_history`: what holds of every reply, given the calls before it.
* `along_of_invariant`: a condition that an invariant gives holds all along.
* `runAll_total`: calls that are always answered make a run that is.
* `runAll_append_of_ok`: a run is cut where its calls are.
* `Throughout`: a condition on each call and the calls before it.
* `runAll_replyAll`: a server that answers from all that it has been told.
* `runAll_stateless`: a server whose replies do not depend on its state.
* `runAll_of_history`: a run whose calls meet a condition on the calls before them is answered, and
  each reply is what the history makes it.
-/

namespace Runs

variable {C R ε σ σ₁ σ₂ : Type}

/-- Answer the calls in order. -/
def runAll (answer : C → σ → Except ε (R × σ)) : List C → σ → Except ε (List R × σ)
  | [], s => .ok ([], s)
  | c :: cs, s => do
      let (r, s) ← answer c s
      let (rs, s) ← runAll answer cs s
      .ok (r :: rs, s)

/-- Every call of the run meets the condition in the state where it is made. -/
def Along (answer : C → σ → Except ε (R × σ)) (Meets : σ → C → Prop) : List C → σ → Prop
  | [], _ => True
  | c :: cs, s => Meets s c ∧ ∀ r s', answer c s = .ok (r, s') → Along answer Meets cs s'

section One

variable {answer : C → σ → Except ε (R × σ)}

lemma runAll_cons_of_ok {c : C} {s s' : σ} {r : R} (h : answer c s = .ok (r, s')) (cs : List C) :
    runAll answer (c :: cs) s = (runAll answer cs s').map fun p => (r :: p.1, p.2) := by
  rw [runAll, h]
  show (runAll answer cs s' >>= _) = _
  cases runAll answer cs s' <;> rfl

lemma runAll_cons_of_error {c : C} {s : σ} {e : ε} (h : answer c s = .error e) (cs : List C) :
    runAll answer (c :: cs) s = .error e := by
  rw [runAll, h]
  rfl

lemma runAll_cons_eq_ok {c : C} {cs : List C} {s s' : σ} {rs : List R}
    (h : runAll answer (c :: cs) s = .ok (rs, s')) :
    ∃ r s₁ rs', answer c s = .ok (r, s₁) ∧ runAll answer cs s₁ = .ok (rs', s') ∧
      rs = r :: rs' := by
  cases hc : answer c s with
  | error e => exact absurd (h.symm.trans (runAll_cons_of_error hc cs)) (by simp)
  | ok p =>
      rw [runAll_cons_of_ok hc] at h
      cases hcs : runAll answer cs p.2 with
      | error e => rw [hcs] at h; exact absurd h (by simp [Except.map])
      | ok q =>
          rw [hcs] at h
          cases h
          exact ⟨p.1, p.2, q.1, rfl, hcs, rfl⟩

/-- What each answered call keeps, under its condition, a run keeps. -/
theorem runAll_preserves {Inv : σ → Prop} {Meets : σ → C → Prop}
    (step : ∀ c s r s', Inv s → Meets s c → answer c s = .ok (r, s') → Inv s') :
    ∀ {cs : List C} {s s' : σ} {rs : List R}, Inv s → Along answer Meets cs s →
      runAll answer cs s = .ok (rs, s') → Inv s' := by
  intro cs
  induction cs with
  | nil =>
      intro s s' rs hs _ h
      cases h
      exact hs
  | cons c cs ih =>
      intro s s' rs hs hmeets h
      obtain ⟨r, s₁, rs', hc, hrest, -⟩ := runAll_cons_eq_ok h
      exact ih (step c s r s₁ hs hmeets.1 hc) (hmeets.2 r s₁ hc) hrest

/-- What each answered call says of its reply and of the calls before, a run says of all. -/
theorem runAll_history {Inv : List C → σ → Prop} {Meets : σ → C → Prop}
    {Post : List C → C → R → Prop}
    (step : ∀ past c s r s', Inv past s → Meets s c → answer c s = .ok (r, s') →
      Post past c r ∧ Inv (past ++ [c]) s') :
    ∀ {cs past : List C} {s s' : σ} {rs : List R}, Inv past s → Along answer Meets cs s →
      runAll answer cs s = .ok (rs, s') →
      Inv (past ++ cs) s' ∧ rs.length = cs.length ∧
        ∀ i c r, cs[i]? = some c → rs[i]? = some r → Post (past ++ cs.take i) c r := by
  intro cs
  induction cs with
  | nil =>
      intro past s s' rs hs _ h
      cases h
      exact ⟨(List.append_nil past).symm ▸ hs, rfl, fun i c r hc => absurd hc (by simp)⟩
  | cons c cs ih =>
      intro past s s' rs hs hmeets h
      obtain ⟨r, s₁, rs', hc, hrest, rfl⟩ := runAll_cons_eq_ok h
      obtain ⟨hpost, hs₁⟩ := step past c s r s₁ hs hmeets.1 hc
      obtain ⟨hinv, hlen, hposts⟩ := ih hs₁ (hmeets.2 r s₁ hc) hrest
      rw [List.append_assoc, List.singleton_append] at hinv
      refine ⟨hinv, by rw [List.length_cons, List.length_cons, hlen], ?_⟩
      intro i d q hd hq
      cases i with
      | zero =>
          cases hd
          cases hq
          rwa [List.take_zero, List.append_nil]
      | succ i =>
          have hi := hposts i d q hd hq
          rwa [List.append_assoc, List.singleton_append] at hi

/-- A condition that follows from an invariant holds all along. -/
theorem along_of_invariant {Inv : σ → Prop} {Allowed : C → Prop} {Meets : σ → C → Prop}
    (step : ∀ c s, Inv s → Allowed c → Meets s c ∧ ∀ r s', answer c s = .ok (r, s') → Inv s') :
    ∀ {cs : List C} {s : σ}, Inv s → (∀ c ∈ cs, Allowed c) → Along answer Meets cs s := by
  intro cs
  induction cs with
  | nil => intro s _ _; trivial
  | cons c cs ih =>
      intro s hs hall
      obtain ⟨hmeets, hnext⟩ := step c s hs (hall c List.mem_cons_self)
      exact ⟨hmeets, fun r s' h => ih (hnext r s' h) fun d hd => hall d (List.mem_cons_of_mem _ hd)⟩

/-- What every answered call keeps, a run keeps. -/
theorem runAll_keeps {Inv : σ → Prop}
    (step : ∀ c s r s', Inv s → answer c s = .ok (r, s') → Inv s') {cs : List C} {s s' : σ}
    {rs : List R} (hs : Inv s) (h : runAll answer cs s = .ok (rs, s')) : Inv s' := by
  have halong : Along answer (fun _ _ => True) cs s :=
    @along_of_invariant _ _ _ _ answer (fun _ => True) (fun _ => True) _
      (fun _ _ _ _ => ⟨trivial, fun _ _ _ => trivial⟩) cs s trivial fun _ _ => trivial
  exact runAll_preserves (fun c s r s' hs _ h => step c s r s' hs h) hs halong h

/-- Calls that are always answered make a run that is. -/
theorem runAll_total {Inv : σ → Prop} {Allowed : C → Prop}
    (step : ∀ c s, Inv s → Allowed c → ∃ r s', answer c s = .ok (r, s') ∧ Inv s') :
    ∀ {cs : List C} {s : σ}, Inv s → (∀ c ∈ cs, Allowed c) →
      ∃ rs s', runAll answer cs s = .ok (rs, s') ∧ Inv s' := by
  intro cs
  induction cs with
  | nil => intro s hs _; exact ⟨[], s, rfl, hs⟩
  | cons c cs ih =>
      intro s hs hall
      obtain ⟨r, s₁, hc, hs₁⟩ := step c s hs (hall c List.mem_cons_self)
      obtain ⟨rs, s', hrest, hs'⟩ := ih hs₁ fun d hd => hall d (List.mem_cons_of_mem _ hd)
      exact ⟨r :: rs, s', by rw [runAll_cons_of_ok hc, hrest]; rfl, hs'⟩

/-- A failed run has failed at a call. -/
lemma runAll_eq_error {cs : List C} {s : σ} {e : ε} (h : runAll answer cs s = .error e) :
    ∃ c s', answer c s' = .error e := by
  induction cs generalizing s with
  | nil => exact absurd h (by simp [runAll])
  | cons c cs ih =>
      cases hc : answer c s with
      | error f =>
          rw [runAll_cons_of_error hc] at h
          cases h
          exact ⟨c, s, hc⟩
      | ok p =>
          rw [runAll_cons_of_ok hc] at h
          cases hrest : runAll answer cs p.2 with
          | error f =>
              rw [hrest] at h
              cases h
              exact ih hrest
          | ok q => rw [hrest] at h; exact absurd h (by simp [Except.map])

/-- A run that goes on after it was answered so far. -/
lemma runAll_append_of_ok {cs ds : List C} {s s' : σ} {rs : List R}
    (h : runAll answer cs s = .ok (rs, s')) :
    runAll answer (cs ++ ds) s = (runAll answer ds s').map fun p => (rs ++ p.1, p.2) := by
  induction cs generalizing s rs with
  | nil =>
      cases h
      rw [List.nil_append]
      cases runAll answer ds s' <;> rfl
  | cons c cs ih =>
      obtain ⟨r, s₁, rs', hc, hrest, rfl⟩ := runAll_cons_eq_ok h
      rw [List.cons_append, runAll_cons_of_ok hc, ih hrest]
      cases runAll answer ds s' <;> rfl

/-- **Calls that change nothing can be left out**, if their replies can be told from the others. -/
theorem runAll_filter {Inv : σ → Prop} {Allowed : C → Prop} {idle : C → Bool} {told : R → Bool}
    (hidle : ∀ c s, Inv s → Allowed c → idle c = true →
      ∃ r, answer c s = .ok (r, s) ∧ told r = true)
    (hbusy : ∀ c s r s', Inv s → Allowed c → idle c = false → answer c s = .ok (r, s') →
      told r = false ∧ Inv s') :
    ∀ {cs : List C} {s : σ}, Inv s → (∀ c ∈ cs, Allowed c) →
      runAll answer (cs.filter fun c => !idle c) s
        = (runAll answer cs s).map fun p => (p.1.filter fun r => !told r, p.2) := by
  intro cs
  induction cs with
  | nil => intro s _ _; rfl
  | cons c cs ih =>
      intro s hs hall
      have hc := hall c List.mem_cons_self
      have hcs : ∀ d ∈ cs, Allowed d := fun d hd => hall d (List.mem_cons_of_mem _ hd)
      cases hkind : idle c with
      | true =>
          obtain ⟨r, hr, htold⟩ := hidle c s hs hc hkind
          rw [List.filter_cons_of_neg (by simp [hkind]), ih hs hcs, runAll_cons_of_ok hr]
          cases runAll answer cs s with
          | error e => rfl
          | ok q => simp [Except.map, htold]
      | false =>
          rw [List.filter_cons_of_pos (by simp [hkind])]
          cases hr : answer c s with
          | error e => rw [runAll_cons_of_error hr, runAll_cons_of_error hr]; rfl
          | ok q =>
              obtain ⟨r, s'⟩ := q
              obtain ⟨htold, hs'⟩ := hbusy c s r s' hs hc hkind hr
              rw [runAll_cons_of_ok hr, runAll_cons_of_ok hr, ih hs' hcs]
              cases runAll answer cs s' with
              | error e => rfl
              | ok q => simp [Except.map, htold]

lemma Along.and {Meets Meets' : σ → C → Prop} : ∀ {cs : List C} {s : σ},
    Along answer Meets cs s → Along answer Meets' cs s →
      Along answer (fun s c => Meets s c ∧ Meets' s c) cs s
  | [], _, _, _ => trivial
  | _ :: _, _, h, h' => ⟨⟨h.1, h'.1⟩, fun r s' hc => (h.2 r s' hc).and (h'.2 r s' hc)⟩

lemma Along.and_allowed {Meets : σ → C → Prop} {Allowed : C → Prop} : ∀ {cs : List C} {s : σ},
    Along answer Meets cs s → (∀ c ∈ cs, Allowed c) →
      Along answer (fun s c => Meets s c ∧ Allowed c) cs s
  | [], _, _, _ => trivial
  | c :: _, _, h, hall => ⟨⟨h.1, hall c List.mem_cons_self⟩, fun r s' hc =>
      (h.2 r s' hc).and_allowed fun d hd => hall d (List.mem_cons_of_mem _ hd)⟩

lemma Along.mono {Meets Meets' : σ → C → Prop} (himp : ∀ s c, Meets s c → Meets' s c) :
    ∀ {cs : List C} {s : σ}, Along answer Meets cs s → Along answer Meets' cs s
  | [], _, _ => trivial
  | _ :: _, _, h => ⟨himp _ _ h.1, fun r s' hc => (h.2 r s' hc).mono himp⟩

lemma Along.of_append {Meets : σ → C → Prop} {ds : List C} : ∀ {cs : List C} {s : σ},
    Along answer Meets (cs ++ ds) s → Along answer Meets cs s
  | [], _, _ => trivial
  | _ :: _, _, h => ⟨h.1, fun r s' hc => (h.2 r s' hc).of_append⟩

/-- A condition on a run is one on its parts. -/
lemma along_append_of_ok {Meets : σ → C → Prop} {cs ds : List C} {s s' : σ} {rs : List R}
    (h : runAll answer cs s = .ok (rs, s')) :
    Along answer Meets (cs ++ ds) s ↔ Along answer Meets cs s ∧ Along answer Meets ds s' := by
  induction cs generalizing s rs with
  | nil =>
      cases h
      exact (and_iff_right trivial).symm
  | cons c cs ih =>
      obtain ⟨r, s₁, rs', hc, hrest, rfl⟩ := runAll_cons_eq_ok h
      rw [List.cons_append, Along, Along, and_assoc]
      refine and_congr_right fun _ => ⟨?_, ?_⟩
      · intro hall
        have hparts := (ih hrest).mp (hall r s₁ hc)
        refine ⟨fun r' t ht => ?_, hparts.2⟩
        cases hc.symm.trans ht
        exact hparts.1
      · rintro ⟨hcs, hds⟩ r' t ht
        cases hc.symm.trans ht
        exact (ih hrest).mpr ⟨hcs r s₁ hc, hds⟩

/-- A run whose calls are answered is answered. -/
theorem runAll_of_along {Inv : σ → Prop} {Meets : σ → C → Prop}
    (step : ∀ c s, Inv s → Meets s c → ∃ r s', answer c s = .ok (r, s') ∧ Inv s') :
    ∀ {cs : List C} {s : σ}, Inv s → Along answer Meets cs s →
      ∃ rs s', runAll answer cs s = .ok (rs, s') ∧ Inv s' := by
  intro cs
  induction cs with
  | nil => intro s hs _; exact ⟨[], s, rfl, hs⟩
  | cons c cs ih =>
      intro s hs h
      obtain ⟨r, s₁, hc, hs₁⟩ := step c s hs h.1
      obtain ⟨rs, s', hrest, hs'⟩ := ih hs₁ (h.2 r s₁ hc)
      exact ⟨r :: rs, s', by rw [runAll_cons_of_ok hc, hrest]; rfl, hs'⟩

/-- A condition that only failing calls do not meet holds all along a run that does not fail. -/
theorem along_of_ne_error {Inv : σ → Prop} {Allowed : C → Prop} {Meets : σ → C → Prop} {e : ε}
    (step : ∀ c s, Inv s → Allowed c → (Meets s c ∨ answer c s = .error e) ∧
      ∀ r s', answer c s = .ok (r, s') → Inv s') :
    ∀ {cs : List C} {s : σ}, Inv s → (∀ c ∈ cs, Allowed c) → runAll answer cs s ≠ .error e →
      Along answer Meets cs s := by
  intro cs
  induction cs with
  | nil => intro s _ _ _; trivial
  | cons c cs ih =>
      intro s hs hall hne
      obtain ⟨hmeets, hnext⟩ := step c s hs (hall c List.mem_cons_self)
      refine ⟨hmeets.resolve_right fun hc => hne (runAll_cons_of_error hc cs), ?_⟩
      intro r s' hc
      refine ih (hnext r s' hc) (fun d hd => hall d (List.mem_cons_of_mem _ hd)) fun hrest => hne ?_
      rw [runAll_cons_of_ok hc, hrest]
      rfl

/-- Each call meets a condition on the calls before it, which are `past` and those of the list. -/
def Throughout (Meets : List C → C → Prop) : List C → List C → Prop
  | _, [] => True
  | past, c :: cs => Meets past c ∧ Throughout Meets (past ++ [c]) cs

lemma throughout_iff {Meets : List C → C → Prop} : ∀ {cs past : List C},
    Throughout Meets past cs ↔
      ∀ before c after, cs = before ++ c :: after → Meets (past ++ before) c := by
  intro cs
  induction cs with
  | nil =>
      intro past
      exact iff_of_true trivial (by simp)
  | cons d cs ih =>
      intro past
      rw [Throughout, ih]
      refine ⟨?_, ?_⟩
      · rintro ⟨hd, hcs⟩ before c after h
        cases before with
        | nil =>
            cases h
            rwa [List.append_nil]
        | cons b before =>
            cases h
            have hc := hcs before c after rfl
            rwa [List.append_assoc] at hc
      · intro h
        refine ⟨?_, ?_⟩
        · have hd := h [] d cs rfl
          rwa [List.append_nil] at hd
        · rintro before c after rfl
          have hc := h (d :: before) c after rfl
          rwa [List.append_assoc]

/-- What every answered call that meets its condition keeps, given the calls before it, a run
keeps. -/
theorem runAll_throughout {Inv : List C → σ → Prop} {Meets : List C → C → Prop}
    (step : ∀ past c s r s', Inv past s → Meets past c → answer c s = .ok (r, s') →
      Inv (past ++ [c]) s') :
    ∀ {cs past : List C} {s s' : σ} {rs : List R}, Inv past s → Throughout Meets past cs →
      runAll answer cs s = .ok (rs, s') → Inv (past ++ cs) s' := by
  intro cs
  induction cs with
  | nil =>
      intro past s s' rs hs _ h
      cases h
      rwa [List.append_nil]
  | cons c cs ih =>
      intro past s s' rs hs hmeets h
      obtain ⟨r, s₁, rs', hc, hrest, -⟩ := runAll_cons_eq_ok h
      have hinv := ih (step past c s r s₁ hs hmeets.1 hc) hmeets.2 hrest
      rwa [List.append_assoc] at hinv

/-- **A run whose calls meet their condition is answered**, and every reply is what the history says
of it. -/
theorem runAll_of_history {Inv : List C → σ → Prop} {Meets : List C → C → Prop}
    {Post : List C → C → R → Prop}
    (step : ∀ past c s, Inv past s → Meets past c →
      ∃ r s', answer c s = .ok (r, s') ∧ Post past c r ∧ Inv (past ++ [c]) s') :
    ∀ {cs past : List C} {s : σ}, Inv past s → Throughout Meets past cs →
      ∃ rs s', runAll answer cs s = .ok (rs, s') ∧
        ∀ before c after, cs = before ++ c :: after →
          ∃ r, rs[before.length]? = some r ∧ Post (past ++ before) c r := by
  intro cs
  induction cs with
  | nil =>
      intro past s _ _
      exact ⟨[], s, rfl, fun before c after h => absurd h (by simp)⟩
  | cons d cs ih =>
      intro past s hs hmeets
      obtain ⟨r, s₁, hd, hpost, hs₁⟩ := step past d s hs hmeets.1
      obtain ⟨rs, s', hrest, hposts⟩ := ih hs₁ hmeets.2
      refine ⟨r :: rs, s', ?_, ?_⟩
      · rw [runAll_cons_of_ok hd, hrest, Except.map]
      · intro before c after h
        cases before with
        | nil =>
            cases h
            exact ⟨r, rfl, by rwa [List.append_nil]⟩
        | cons b before =>
            cases h
            obtain ⟨r', hr', hpost'⟩ := hposts before c after rfl
            rw [List.append_assoc] at hpost'
            exact ⟨r', hr', hpost'⟩

instance Along.decidable {Meets : σ → C → Prop} [∀ s c, Decidable (Meets s c)] :
    ∀ (cs : List C) (s : σ), Decidable (Along answer Meets cs s)
  | [], _ => isTrue trivial
  | c :: cs, s =>
      match h : answer c s with
      | .ok (r, s') =>
          have := @Along.decidable Meets _ cs s'
          decidable_of_iff (Meets s c ∧ Along answer Meets cs s') <| by
            rw [Along, h]
            refine and_congr_right fun _ => ⟨?_, fun hrest => hrest r s' rfl⟩
            intro hrest r' t heq
            cases heq
            exact hrest
      | .error e =>
          decidable_of_iff (Meets s c) <| by
            rw [Along, h]
            exact (and_iff_left fun r' t heq => nomatch heq).symm

end One

/-- **Servers that answer every call alike answer every run alike.** -/
theorem runAll_related {Rel : σ₁ → σ₂ → Prop} {answer₁ : C → σ₁ → Except ε (R × σ₁)}
    {answer₂ : C → σ₂ → Except ε (R × σ₂)} {Meets : σ₂ → C → Prop}
    (step : ∀ c s t, Rel s t → Meets t c → Prog.Agree Rel (answer₁ c s) (answer₂ c t)) :
    ∀ (cs : List C) {s : σ₁} {t : σ₂}, Rel s t → Along answer₂ Meets cs t →
      Prog.Agree Rel (runAll answer₁ cs s) (runAll answer₂ cs t) := by
  intro cs
  induction cs with
  | nil => intro s t h _; exact ⟨rfl, h⟩
  | cons c cs ih =>
      intro s t h hmeets
      have hc := step c s t h hmeets.1
      cases h₂ : answer₂ c t with
      | error e =>
          rw [h₂] at hc
          rw [runAll_cons_of_error h₂, runAll_cons_of_error hc.eq_error]
          rfl
      | ok p =>
          obtain ⟨r, t'⟩ := p
          rw [h₂] at hc
          obtain ⟨s', hs', hrel⟩ := hc.exists_ok
          have hrest := ih hrel (hmeets.2 r t' h₂)
          rw [runAll_cons_of_ok h₂, runAll_cons_of_ok hs']
          cases hd : runAll answer₂ cs t' with
          | error e =>
              rw [hd] at hrest
              rw [hrest.eq_error]
              rfl
          | ok q =>
              obtain ⟨rs, t''⟩ := q
              rw [hd] at hrest
              obtain ⟨s'', hs'', hrel'⟩ := hrest.exists_ok
              rw [hs'']
              exact ⟨rfl, hrel'⟩

section Two

variable {Rel : σ₁ → σ₂ → Prop} {answer₁ : C → σ₁ → Except ε (R × σ₁)}
  {answer₂ : C → σ₂ → Except ε (R × σ₂)} {Meets₁ : σ₁ → C → Prop} {Meets₂ : σ₂ → C → Prop}

/-- A condition on one of two related servers is a condition on the other. -/
theorem along_of_related (hmeets : ∀ c s t, Rel s t → Meets₁ s c → Meets₂ t c)
    (step : ∀ c s t, Rel s t → Meets₁ s c → Prog.Agree Rel (answer₁ c s) (answer₂ c t)) :
    ∀ {cs : List C} {s : σ₁} {t : σ₂}, Rel s t → Along answer₁ Meets₁ cs s →
      Along answer₂ Meets₂ cs t := by
  intro cs
  induction cs with
  | nil => intro s t _ _; trivial
  | cons c cs ih =>
      intro s t hrel h
      have hc := step c s t hrel h.1
      refine ⟨hmeets c s t hrel h.1, ?_⟩
      intro r t' ht'
      rw [ht'] at hc
      obtain ⟨s', hs', hrel'⟩ := hc.exists_ok
      exact ih hrel' (h.2 r s' hs')

end Two

/-! ## Servers whose state is their history -/

section Told

variable {α : Type} (reply : C → List α → R) (told : C → List α)

/-- The replies of a server that answers from all that it has been told, the last call's part
included in the list that the next call sees. -/
def replyAll : List C → List α → List R
  | [], _ => []
  | c :: cs, log => reply c log :: replyAll cs (log ++ told c)

lemma getElem?_replyAll : ∀ {cs : List C} (log : List α) {i : Nat} {c : C}, cs[i]? = some c →
    (replyAll reply told cs log)[i]? = some (reply c (log ++ (cs.take i).flatMap told))
  | [], _, _, _, h => nomatch h
  | c :: cs, log, 0, _, h => by
      cases h
      rw [List.take_zero, List.flatMap_nil, List.append_nil]
      rfl
  | c :: cs, log, i + 1, _, h => by
      rw [List.take_succ_cons, List.flatMap_cons, ← List.append_assoc]
      exact getElem?_replyAll (log ++ told c) (i := i) h

variable {reply told}

/-- **Its runs.** -/
theorem runAll_replyAll {answer : C → List α → Except ε (R × List α)} {bound : Nat}
    (step : ∀ c log, (log ++ told c).length ≤ bound →
      answer c log = .ok (reply c log, log ++ told c)) :
    ∀ {cs : List C} {log : List α}, (log ++ cs.flatMap told).length ≤ bound →
      runAll answer cs log = .ok (replyAll reply told cs log, log ++ cs.flatMap told) := by
  intro cs
  induction cs with
  | nil =>
      intro log _
      rw [List.flatMap_nil, List.append_nil]
      rfl
  | cons c cs ih =>
      intro log hlen
      rw [List.flatMap_cons, ← List.append_assoc] at hlen ⊢
      have hone : (log ++ told c).length ≤ bound := by
        rw [List.length_append] at hlen
        omega
      rw [runAll_cons_of_ok (step c log hone), ih hlen]
      rfl

end Told

/-! ## Servers whose replies do not depend on their state -/

/-- **Such a server answers a run call by call**, up to the first call that fails. -/
theorem runAll_stateless {Inv : σ → Prop} {answer : C → σ → Except ε (R × σ)}
    {reply : C → Except ε R} (step : ∀ c s, Inv s → Prog.Gives Inv (reply c) (answer c s)) :
    ∀ (cs : List C) {s : σ}, Inv s → Prog.Gives Inv (cs.mapM reply) (runAll answer cs s) := by
  intro cs
  induction cs with
  | nil => intro s hs; exact ⟨s, rfl, hs⟩
  | cons c cs ih =>
      intro s hs
      have hc := step c s hs
      rw [List.mapM_cons]
      cases hr : reply c with
      | error e =>
          rw [hr] at hc
          exact runAll_cons_of_error hc cs
      | ok r =>
          rw [hr] at hc
          obtain ⟨s', hs', hinv⟩ := hc
          have hrest := ih hinv
          rw [runAll_cons_of_ok hs']
          cases hrs : cs.mapM reply with
          | error e =>
              rw [hrs] at hrest
              rw [show runAll answer cs s' = .error e from hrest]
              rfl
          | ok rs =>
              rw [hrs] at hrest
              obtain ⟨s'', hs'', hinv'⟩ := hrest
              exact ⟨s'', by rw [hs'']; rfl, hinv'⟩

end Runs
