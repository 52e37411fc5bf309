import Mathlib.Logic.Basic

/-!
# Client programs of a stateful interface

A component offers requests; a client calls them and computes in between.  `Prog` is the type of
such clients: it records which requests are made and what is done with the answers, and says
nothing about the state behind the interface.  A `Handler` supplies that state, and `Prog.run`
puts the two together.

The point of the separation is `Prog.run_related`: two implementations of one interface that
answer each single request alike answer every client alike.  It is proved once, by induction on
the client, instead of once for each client function.

* `Prog.run_bind`, `Prog.run_request`, `Prog.run_lift`: the equations by which a client is run.
* `Prog.run_related`: forward simulation, for all clients at once.
* `Prog.run_preserves`: a relation kept by each request is kept by every client.
* `Prog.Gives`: the result is known, and of the state behind it an invariant.
-/

/-- Programs that make requests `o : Op`, get answers in `Ans o`, and may fail with an `ε`. -/
inductive Prog (Op : Type) (Ans : Op → Type) (ε : Type) (α : Type) : Type
  | ret (a : α)
  | fail (e : ε)
  | call (o : Op) (next : Ans o → Prog Op Ans ε α)

namespace Prog

variable {Op : Type} {Ans : Op → Type} {ε α β γ : Type}

def bind : Prog Op Ans ε α → (α → Prog Op Ans ε β) → Prog Op Ans ε β
  | ret a, f => f a
  | fail e, _ => fail e
  | call o next, f => call o fun x => (next x).bind f

instance : Monad (Prog Op Ans ε) where
  pure := ret
  bind := bind

/-- A computation that makes no request is a program. -/
def ofExcept : Except ε α → Prog Op Ans ε α
  | .ok a => ret a
  | .error e => fail e

instance : MonadLift (Except ε) (Prog Op Ans ε) where
  monadLift := ofExcept

/-- The program that makes one request and returns the answer. -/
def request (o : Op) : Prog Op Ans ε (Ans o) := call o ret

lemma bind_ret : ∀ p : Prog Op Ans ε α, p.bind ret = p
  | ret _ => rfl
  | fail _ => rfl
  | call o next => congrArg (call o) (funext fun x => bind_ret (next x))

lemma bind_assoc (f : α → Prog Op Ans ε β) (g : β → Prog Op Ans ε γ) :
    ∀ p : Prog Op Ans ε α, (p.bind f).bind g = p.bind fun a => (f a).bind g
  | ret _ => rfl
  | fail _ => rfl
  | call o next => congrArg (call o) (funext fun x => bind_assoc f g (next x))

instance : LawfulMonad (Prog Op Ans ε) := LawfulMonad.mk' _
  bind_ret (fun _ _ => rfl) (fun p f g => bind_assoc f g p)

end Prog

/-- An implementation of an interface: it answers each request from a state `σ`, or fails. -/
abbrev Handler (Op : Type) (Ans : Op → Type) (ε σ : Type) : Type :=
  (o : Op) → σ → Except ε (Ans o × σ)

namespace Prog

variable {Op : Type} {Ans : Op → Type} {ε α β σ σ₁ σ₂ : Type}

/-- Running a client against an implementation. -/
def run (H : Handler Op Ans ε σ) : Prog Op Ans ε α → σ → Except ε (α × σ)
  | ret a, s => .ok (a, s)
  | fail e, _ => .error e
  | call o next, s =>
      match H o s with
      | .ok (x, s') => (next x).run H s'
      | .error e => .error e

section Equations

variable (H : Handler Op Ans ε σ) (s : σ)

@[simp] lemma run_pure (a : α) : (pure a : Prog Op Ans ε α).run H s = .ok (a, s) := rfl

@[simp] lemma run_request (o : Op) : (request o : Prog Op Ans ε (Ans o)).run H s = H o s := by
  simp only [request, run]
  split <;> simp_all

@[simp] lemma run_lift (x : Except ε α) :
    (liftM x : Prog Op Ans ε α).run H s = x.map (·, s) := by
  cases x <;> rfl

@[simp] lemma run_monadLift (x : Except ε α) :
    (MonadLift.monadLift x : Prog Op Ans ε α).run H s = x.map (·, s) := by
  cases x <;> rfl

/-- Running a sequence is running its parts in turn. -/
theorem run_bind (p : Prog Op Ans ε α) (f : α → Prog Op Ans ε β) :
    (p >>= f).run H s = (p.run H s) >>= fun r => (f r.1).run H r.2 := by
  induction p generalizing s with
  | ret a => rfl
  | fail e => rfl
  | call o next ih =>
      show (call o fun x => (next x).bind f).run H s = _
      simp only [run]
      cases H o s with
      | error e => rfl
      | ok r => exact ih r.1 r.2

/-- A part that succeeds hands its answer and its state on. -/
lemma run_bind_of_ok {p : Prog Op Ans ε α} {s : σ} {a : α} {s' : σ} (h : p.run H s = .ok (a, s'))
    (f : α → Prog Op Ans ε β) : (p >>= f).run H s = (f a).run H s' := by
  rw [run_bind, h]; rfl

lemma run_bind_of_error {p : Prog Op Ans ε α} {s : σ} {e : ε} (h : p.run H s = .error e)
    (f : α → Prog Op Ans ε β) : (p >>= f).run H s = .error e := by
  rw [run_bind, h]; rfl

/-- A computation without requests that succeeds hands its value on. -/
lemma run_liftM_bind {x : Except ε α} {a : α} (h : x = .ok a) (f : α → Prog Op Ans ε β) :
    ((liftM x : Prog Op Ans ε α) >>= f).run H s = (f a).run H s := by
  subst h; rfl

lemma run_liftM_bind_eq_ok {x : Except ε α} {f : α → Prog Op Ans ε β} {s : σ} {r : β × σ} :
    ((liftM x : Prog Op Ans ε α) >>= f).run H s = .ok r ↔
      ∃ a, x = .ok a ∧ (f a).run H s = .ok r := by
  cases x with
  | error e => exact ⟨nofun, nofun⟩
  | ok a => exact ⟨fun h => ⟨a, rfl, h⟩, fun ⟨_, h, hr⟩ => Except.ok.inj h ▸ hr⟩

/-- A part that leaves the state as it is hands its result on, whatever it is. -/
lemma run_bind_of_map {p : Prog Op Ans ε α} {s : σ} {x : Except ε α}
    (h : p.run H s = x.map (·, s)) (f : α → Prog Op Ans ε β) :
    (p >>= f).run H s = x >>= fun a => (f a).run H s := by
  rw [run_bind, h]
  cases x <;> rfl

/-- Conversely a sequence succeeds only if both its parts do. -/
lemma run_bind_eq_ok {p : Prog Op Ans ε α} {f : α → Prog Op Ans ε β} {s s' : σ} {b : β}
    (h : (p >>= f).run H s = .ok (b, s')) :
    ∃ a t, p.run H s = .ok (a, t) ∧ (f a).run H t = .ok (b, s') := by
  rw [run_bind] at h
  cases hp : p.run H s with
  | error e => rw [hp] at h; exact absurd h (by simp [Bind.bind, Except.bind])
  | ok r => rw [hp] at h; exact ⟨r.1, r.2, rfl, h⟩

end Equations

/-! ## Simulation -/

/-- Two results agree: the same answer in related states, or the same failure. -/
def Agree (R : σ₁ → σ₂ → Prop) : Except ε (α × σ₁) → Except ε (α × σ₂) → Prop
  | .ok (a, s), .ok (b, t) => a = b ∧ R s t
  | .error e, .error f => e = f
  | _, _ => False

lemma Agree.exists_ok {R : σ₁ → σ₂ → Prop} {x : Except ε (α × σ₁)} {a : α} {t : σ₂}
    (h : Agree R x (.ok (a, t))) : ∃ s, x = .ok (a, s) ∧ R s t := by
  match x, h with
  | .ok (_, s), ⟨rfl, hR⟩ => exact ⟨s, rfl, hR⟩

lemma Agree.eq_error {R : σ₁ → σ₂ → Prop} {x : Except ε (α × σ₁)} {e : ε}
    (h : Agree R x (.error e)) : x = .error e := by
  match x, h with
  | .error _, rfl => rfl

lemma Agree.exists_ok' {R : σ₁ → σ₂ → Prop} {y : Except ε (α × σ₂)} {a : α} {s : σ₁}
    (h : Agree R (.ok (a, s)) y) : ∃ t, y = .ok (a, t) ∧ R s t := by
  match y, h with
  | .ok (_, t), ⟨rfl, hR⟩ => exact ⟨t, rfl, hR⟩

/-- What holds of the second state holds where they agree. -/
lemma Agree.and {R : σ₁ → σ₂ → Prop} {Q : σ₂ → Prop} {x : Except ε (α × σ₁)}
    {y : Except ε (α × σ₂)} (h : Agree R x y) (hy : ∀ a t, y = .ok (a, t) → Q t) :
    Agree (fun s t => R s t ∧ Q t) x y := by
  match x, y, h with
  | .ok (_, _), .ok (_, t), h => exact ⟨h.1, h.2, hy _ t rfl⟩
  | .error _, .error _, h => exact h

lemma Agree.symm {R : σ₁ → σ₂ → Prop} {x : Except ε (α × σ₁)} {y : Except ε (α × σ₂)}
    (h : Agree R x y) : Agree (fun t s => R s t) y x := by
  match x, y, h with
  | .ok (_, _), .ok (_, _), h => exact ⟨h.1.symm, h.2⟩
  | .error _, .error _, h => exact Eq.symm h

/-- **Implementations that answer every request alike answer every client alike.** -/
theorem run_related {R : σ₁ → σ₂ → Prop} {H₁ : Handler Op Ans ε σ₁} {H₂ : Handler Op Ans ε σ₂}
    (hH : ∀ o s t, R s t → Agree R (H₁ o s) (H₂ o t)) (p : Prog Op Ans ε α) :
    ∀ {s t}, R s t → Agree R (p.run H₁ s) (p.run H₂ t) := by
  induction p with
  | ret a => intro s t h; exact ⟨rfl, h⟩
  | fail e => intro s t h; rfl
  | call o next ih =>
      intro s t h
      have ho := hH o s t h
      simp only [run]
      cases h₂ : H₂ o t with
      | error e =>
          rw [h₂] at ho
          rw [ho.eq_error]
          rfl
      | ok r =>
          obtain ⟨x, t'⟩ := r
          rw [h₂] at ho
          obtain ⟨s', hs, hR⟩ := ho.exists_ok
          rw [hs]
          exact ih x hR

/-- A reflexive and transitive relation kept by each request is kept by every client. -/
theorem run_preserves {R : σ → σ → Prop} {H : Handler Op Ans ε σ} (hrefl : ∀ s, R s s)
    (htrans : ∀ {a b c}, R a b → R b c → R a c)
    (hH : ∀ o s x s', H o s = .ok (x, s') → R s s') (p : Prog Op Ans ε α) :
    ∀ {s a s'}, p.run H s = .ok (a, s') → R s s' := by
  induction p with
  | ret a =>
      intro s b s' h
      simp only [run, Except.ok.injEq, Prod.mk.injEq] at h
      exact h.2 ▸ hrefl s
  | fail e => intro s b s' h; simp [run] at h
  | call o next ih =>
      intro s b s' h
      simp only [run] at h
      cases ho : H o s with
      | error e => rw [ho] at h; simp at h
      | ok r => rw [ho] at h; exact htrans (hH o s r.1 r.2 ho) (ih r.1 h)

/-! ## Known results -/

/-- The answer is this one, in a state with the invariant, or the failure is this one. -/
def Gives (Inv : σ → Prop) : Except ε α → Except ε (α × σ) → Prop
  | .ok a, x => ∃ s, x = .ok (a, s) ∧ Inv s
  | .error e, x => x = .error e

lemma Gives.mono {Inv Inv' : σ → Prop} {y : Except ε α} {x : Except ε (α × σ)}
    (h : Gives Inv y x) (himp : ∀ s, Inv s → Inv' s) : Gives Inv' y x := by
  cases y with
  | error e => exact h
  | ok a =>
      obtain ⟨s, hs, hinv⟩ := h
      exact ⟨s, hs, himp s hinv⟩

lemma Gives.exists_ok {Inv : σ → Prop} {y : Except ε α} {x : Except ε (α × σ)} {a : α}
    (h : Gives Inv y x) (hy : y = .ok a) : ∃ s, x = .ok (a, s) ∧ Inv s := by
  subst hy
  exact h

/-- A known result is one that agrees with that of an implementation without a state. -/
lemma gives_iff {Inv : σ → Prop} {y : Except ε (α × Unit)} {x : Except ε (α × σ)} :
    Gives Inv (y.map Prod.fst) x ↔ Agree (fun s _ => Inv s) x y := by
  cases y with
  | error e => exact ⟨fun h => by rw [show x = .error e from h]; rfl, Agree.eq_error⟩
  | ok r =>
      refine ⟨?_, Agree.exists_ok⟩
      rintro ⟨s, rfl, hs⟩
      exact ⟨rfl, hs⟩

end Prog
