/-
What a reader settles on, and what it looks at.

A reader never looks behind the current token, and it never goes back. So from any tape it settles
on tokens that it passes and on an outcome, and on every other tape that shows these tokens, with
the same token behind them, it does the same. Fuel is in the way of saying this: a longer list of
tokens comes with more of it. Readers are therefore taken as a family, all members of which settle
on the same, as long as they have room for one token more than they pass.

What has been passed when a value is given, and when an error is reported, is said by two conditions
on tokens. Both are put together along the binds of a reader; the second one is for the prefixes
that can still become what the first one asks for.
-/
import Pulse.Grammar.Stmt

set_option autoImplicit false

namespace Pulse

/-! ## Tapes that show tokens -/

namespace Tape

/-- A tape with the end of input on it. -/
def Ends (t : Tape) : Prop := ∃ u ∈ t.current :: t.rest, u.kind = .eof

/-- A tape shows tokens in front of the end of input, and behind them it is another tape. -/
def Shows (t : Tape) : List Token → Tape → Prop
  | [], t' => t = t'
  | u :: us, t' => t.current = u ∧ t.kind ≠ .eof ∧ t.rest ≠ [] ∧ t.advance.Shows us t'

/-- Passing a token that others follow. -/
theorem advance_eq {t : Tape} {u : Token} {us : List Token} (hkind : t.kind ≠ .eof)
    (hrest : t.rest = u :: us) : t.advance = ⟨u, us, t.current.span.stop, false⟩ := by
  rw [advance, if_neg hkind, hrest]

/-- In front of the end of input there is another token. -/
theorem Ends.rest_ne_nil {t : Tape} (h : t.Ends) (hkind : t.kind ≠ .eof) : t.rest ≠ [] := by
  rintro hrest
  obtain ⟨u, hu, heof⟩ := h
  rw [hrest, List.mem_singleton] at hu
  subst hu
  exact hkind heof

/-- Passing a token never loses the end of input, since the tape stays on it. -/
theorem Ends.advance {t : Tape} (h : t.Ends) : t.advance.Ends := by
  -- On the end of input itself passing does nothing.
  by_cases hkind : t.kind = .eof
  · rw [Tape.advance, if_pos hkind]
    exact h
  · obtain ⟨u, us, hrest⟩ := List.exists_cons_of_ne_nil (h.rest_ne_nil hkind)
    obtain ⟨v, hv, heof⟩ := h
    rw [advance_eq hkind hrest]
    rw [hrest] at hv
    rcases List.mem_cons.mp hv with rfl | hv
    · exact absurd heof hkind
    · exact ⟨v, hv, heof⟩

/-- A token that is passed is gone from the tape. -/
theorem length_advance {t : Tape} (hkind : t.kind ≠ .eof) (hrest : t.rest ≠ []) :
    t.advance.rest.length + 1 = t.rest.length := by
  obtain ⟨u, us, hrest⟩ := List.exists_cons_of_ne_nil hrest
  rw [advance_eq hkind hrest, hrest, List.length_cons]

/-- Tokens are shown part by part. -/
theorem shows_append {t t' : Tape} {us vs : List Token} :
    t.Shows (us ++ vs) t' ↔ ∃ m, t.Shows us m ∧ m.Shows vs t' := by
  induction us generalizing t with
  | nil => simp [Shows]
  | cons u us ih =>
    simp only [List.cons_append, Shows, ih]
    constructor
    · rintro ⟨hu, hkind, hrest, m, hm, hm'⟩
      exact ⟨m, ⟨hu, hkind, hrest, hm⟩, hm'⟩
    · rintro ⟨m, ⟨hu, hkind, hrest, hm⟩, hm'⟩
      exact ⟨hu, hkind, hrest, m, hm, hm'⟩

namespace Shows

variable {s s' t t' : Tape} {us : List Token}

/-- Behind tokens that are shown the end of input is still to come. -/
theorem ends (h : t.Shows us t') (hends : t.Ends) : t'.Ends := by
  induction us generalizing t with
  | nil =>
    obtain rfl := h
    exact hends
  | cons u us ih => exact ih h.2.2.2 hends.advance

/-- As many tokens are gone from the tape as are shown. -/
theorem length (h : t.Shows us t') : t'.rest.length + us.length = t.rest.length := by
  induction us generalizing t with
  | nil =>
    obtain rfl := h
    rfl
  | cons u us ih =>
    obtain ⟨-, hkind, hrest, hshows⟩ := h
    rw [← length_advance hkind hrest, ← ih hshows, List.length_cons, Nat.add_assoc]

/-- The tokens on a tape. -/
theorem tokens (h : t.Shows us t') : t.current :: t.rest = us ++ t'.current :: t'.rest := by
  induction us generalizing t with
  | nil =>
    obtain rfl := h
    rfl
  | cons u us ih =>
    obtain ⟨rfl, hkind, hrest, hshows⟩ := h
    obtain ⟨v, vs, hrest⟩ := List.exists_cons_of_ne_nil hrest
    rw [List.cons_append, ← ih hshows, advance_eq hkind hrest, hrest]

/-- No token that is shown is the end of input. -/
theorem ne_eof (h : t.Shows us t') : ∀ u ∈ us, u.kind ≠ .eof := by
  induction us generalizing t with
  | nil => simp
  | cons u us ih =>
    obtain ⟨rfl, hkind, -, hshows⟩ := h
    exact List.forall_mem_cons.mpr ⟨hkind, ih hshows⟩

/-- Tapes that show the same tokens are on the same token, if they are behind them. -/
theorem current_eq (hs : s.Shows us s') (ht : t.Shows us t') (h : s'.current = t'.current) :
    s.current = t.current := by
  cases us with
  | nil =>
    obtain rfl := hs
    obtain rfl := ht
    exact h
  | cons u us => rw [hs.1, ht.1]

/-- They remember the same end of a last token, if they did in front of them. -/
theorem lastEnd_eq (hs : s.Shows us s') (ht : t.Shows us t') (h : s.lastEnd = t.lastEnd) :
    s'.lastEnd = t'.lastEnd := by
  induction us generalizing s t with
  | nil =>
    obtain rfl := hs
    obtain rfl := ht
    exact h
  | cons u us ih =>
    obtain ⟨hs, hskind, hsrest, hs'⟩ := hs
    obtain ⟨ht, htkind, htrest, ht'⟩ := ht
    refine ih hs' ht' ?_
    obtain ⟨_, _, hsrest⟩ := List.exists_cons_of_ne_nil hsrest
    obtain ⟨_, _, htrest⟩ := List.exists_cons_of_ne_nil htrest
    rw [advance_eq hskind hsrest, advance_eq htkind htrest, hs, ht]

end Shows

/-- Tokens in front of another one, none of them the end of input, are shown. A tape is on its first
token, and passing one token shows the next. -/
theorem exists_shows {us vs : List Token} {u : Token} (hus : ∀ v ∈ us, v.kind ≠ .eof) {t : Tape}
    (h : t.current :: t.rest = us ++ u :: vs) : ∃ t', t.Shows us t' ∧ t'.current = u := by
  induction us generalizing t with
  | nil => exact ⟨t, rfl, (List.cons.inj h).1⟩
  | cons w us ih =>
    rw [List.cons_append] at h
    obtain ⟨hcurrent, hrest⟩ := List.cons.inj h
    obtain ⟨hw, hus⟩ := List.forall_mem_cons.mp hus
    have hkind : t.kind ≠ .eof := by
      rw [kind, hcurrent]
      exact hw
    obtain ⟨v, rest, hnext⟩ : ∃ v rest, us ++ u :: vs = v :: rest := by
      cases us with
      | nil => exact ⟨u, vs, rfl⟩
      | cons v us => exact ⟨v, us ++ u :: vs, rfl⟩
    rw [hnext] at hrest
    obtain ⟨t', hshows, ht'⟩ := ih hus (t := t.advance) (by rw [advance_eq hkind hrest, hnext])
    exact ⟨t', ⟨hcurrent, hkind, by simp [hrest], hshows⟩, ht'⟩

end Tape

/-! ## Families of readers -/

namespace Reader

variable {ι κ α β γ : Type}

/-- From a tape, readers pass tokens and then give an outcome; and so they do from every tape that
shows these tokens with the same token behind them, those readers that have room for the tokens. -/
structure Settles (r : ι → Reader α) (room : ι → Nat) (t : Tape) (us : List Token) (t' : Tape)
    (v : Tape → Outcome α) : Prop where
  passes : t.Shows us t'
  again : ∀ i s s', us.length < room i → s.lastEnd = t.lastEnd → s.Shows us s' →
    s'.current = t'.current → r i s = v s'

/-- From a tape, readers settle on a value behind tokens of one kind, or on an error behind tokens
of another kind. The error is reported where the tape then stands. -/
inductive Decides (r : ι → Reader α) (room : ι → Nat) (P : α → List Token → Prop)
    (Q : List Token → Prop) (t : Tape) : Prop where
  | accepts {a : α} {us : List Token} {t' : Tape} (h : Settles r room t us t' (.ok a))
      (post : P a us) : Decides r room P Q t
  | rejects {e : SyntaxError} {us : List Token} {t' : Tape} (h : Settles r room t us t' (.error e))
      (pre : Q us) (position : e.position = t'.current.span.start) : Decides r room P Q t

section Settles

variable {r : ι → Reader α} {f : ι → α → Reader β} {room : ι → Nat} {t t' t'' : Tape}
  {us vs : List Token}

/-- One reader behind the other, where the first gives a value: they settle on the tokens of both.
The second has as much room as the first left. -/
theorem Settles.bind {a : α} {v : Tape → Outcome β} (hr : Settles r room t us t' (.ok a))
    (hf : Settles (fun i => f i a) (fun i => room i - us.length) t' vs t'' v) :
    Settles (fun i => r i >>= f i) room t (us ++ vs) t'' v := by
  refine ⟨Tape.shows_append.mpr ⟨t', hr.passes, hf.passes⟩, ?_⟩
  intro i s s'' hroom hlast hshows hcurrent
  -- On any other tape the tokens split at the same place, and both readers do there what they did
  -- here.
  obtain ⟨s', hs, hs'⟩ := Tape.shows_append.mp hshows
  rw [List.length_append] at hroom
  have hmid : s'.current = t'.current := hs'.current_eq hf.passes hcurrent
  have hfirst : r i s = .ok a s' := hr.again i s s' (by omega) hlast hs hmid
  have hend : s'.lastEnd = t'.lastEnd := hs.lastEnd_eq hr.passes hlast
  have hthen : f i a s' = v s'' := hf.again i s' s'' (by omega) hend hs' hcurrent
  show Reader.bind (r i) (f i) s = v s''
  rw [Reader.bind, hfirst]
  exact hthen

/-- An error of the first reader is the error of both. -/
theorem Settles.bind_error {e : SyntaxError} (hr : Settles r room t us t' (.error e)) :
    Settles (fun i => r i >>= f i) room t us t' (.error e) := by
  refine ⟨hr.passes, ?_⟩
  intro i s s' hroom hlast hshows hcurrent
  show Reader.bind (r i) (f i) s = .error e s'
  rw [Reader.bind, hr.again i s s' hroom hlast hshows hcurrent]

end Settles

section Decides

variable {r : ι → Reader α} {room : ι → Nat} {P : α → List Token → Prop} {Q : List Token → Prop}
  {P' : β → List Token → Prop} {Q' : List Token → Prop} {t : Tape}

/-- The conditions may be weakened. -/
theorem Decides.imp {P' : α → List Token → Prop} (h : Decides r room P Q t)
    (hP : ∀ a us, P a us → P' a us) (hQ : ∀ us, Q us → Q' us) : Decides r room P' Q' t := by
  cases h with
  | accepts h post => exact .accepts h (hP _ _ post)
  | rejects h pre position => exact .rejects h (hQ _ pre) position

/-- A family whose readers with room are readers of another family with as much room. It decides as
the other family does. -/
theorem Decides.cover {r' : κ → Reader α} {room' : κ → Nat} (h : Decides r' room' P Q t)
    (hcover : ∀ i, 0 < room i → ∃ j, r i = r' j ∧ room i ≤ room' j) : Decides r room P Q t := by
  have hsettles : ∀ us t' v, Settles r' room' t us t' v → Settles r room t us t' v := by
    intro us t' v hr
    refine ⟨hr.passes, ?_⟩
    intro i s s' hroom hlast hshows hcurrent
    obtain ⟨j, hj, hle⟩ := hcover i (by omega)
    rw [hj]
    exact hr.again j s s' (by omega) hlast hshows hcurrent
  cases h with
  | accepts h post => exact .accepts (hsettles _ _ _ h) post
  | rejects h pre position => exact .rejects (hsettles _ _ _ h) pre position

/-- One reader behind the other. What the first has passed is no longer there for the second, so the
room of each reader shrinks by it. -/
theorem Decides.bind {f : ι → α → Reader β} (hr : Decides r room P Q t) (hends : t.Ends)
    (hQ : ∀ us, Q us → Q' us)
    (hf : ∀ a us t', P a us → t'.Ends → t'.rest.length + us.length = t.rest.length →
      Decides (fun i => f i a) (fun i => room i - us.length) (fun b vs => P' b (us ++ vs))
        (fun vs => Q' (us ++ vs)) t') :
    Decides (fun i => r i >>= f i) room P' Q' t := by
  cases hr with
  | rejects h pre position => exact .rejects h.bind_error (hQ _ pre) position
  | accepts h post =>
    cases hf _ _ _ post (h.passes.ends hends) h.passes.length with
    | accepts h' post' => exact .accepts (h.bind h') post'
    | rejects h' pre' position => exact .rejects (h.bind h') pre' position

/-- A reader that takes nothing. -/
theorem decides_pure {a : α} (h : P a []) : Decides (fun _ => (pure a : Reader α)) room P Q t := by
  have hsettles : Settles (fun _ : ι => (pure a : Reader α)) room t [] t (.ok a) := by
    refine ⟨rfl, ?_⟩
    rintro i s s' - - rfl -
    rfl
  exact .accepts hsettles h

/-- A value in front of a reader changes nothing. -/
theorem decides_pure_bind {a : α} {f : ι → α → Reader β}
    (h : Decides (fun i => f i a) room P' Q' t) :
    Decides (fun i => (pure a : Reader α) >>= f i) room P' Q' t := h

/-- A reader that fails where it stands. -/
theorem decides_fail {g : Tape → SyntaxError} (hg : ∀ s, s.current = t.current → g s = g t)
    (hposition : (g t).position = t.current.span.start) (h : Q []) :
    Decides (fun _ s => (.error (g s) s : Outcome α)) room P Q t := by
  have hsettles : Settles (fun (_ : ι) s => (.error (g s) s : Outcome α)) room t [] t
      (.error (g t)) := by
    refine ⟨rfl, ?_⟩
    rintro i s s' - - rfl hcurrent
    rw [hg s hcurrent]
  exact .rejects hsettles h hposition

/-- An error for an unexpected token names the current token and nothing else, so it is the same on
every tape that is on this token (`Parser::unexpected`). -/
theorem decides_unexpected (h : Q []) : Decides (fun _ => (unexpected : Reader α)) room P Q t := by
  refine decides_fail (fun s hs => ?_) rfl h
  rw [Tape.unexpected, Tape.unexpected, hs]

theorem decides_unexpectedWhere {message : String} (h : Q []) :
    Decides (fun _ => (unexpectedWhere message : Reader α)) room P Q t := by
  refine decides_fail (g := (·.unexpectedWhere message)) (fun s hs => ?_) rfl h
  rw [Tape.unexpectedWhere, Tape.unexpectedWhere, hs]

/-- A reader that asks the tape for what is in view. The answer depends on what both tapes have in
common: the current token and the end of the last one. -/
theorem decides_ask {g : Tape → γ} {f : ι → γ → Reader α}
    (hg : ∀ s, s.current = t.current → s.lastEnd = t.lastEnd → g s = g t)
    (h : Decides (fun i => f i (g t)) room P Q t) :
    Decides (fun i => ask g >>= f i) room P Q t := by
  have hsettles : ∀ us t' v, Settles (fun i => f i (g t)) room t us t' v →
      Settles (fun i => ask g >>= f i) room t us t' v := by
    intro us t' v hr
    refine ⟨hr.passes, ?_⟩
    intro i s s' hroom hlast hshows hcurrent
    rw [← hr.again i s s' hroom hlast hshows hcurrent,
      ← hg s (hshows.current_eq hr.passes hcurrent) hlast]
    rfl
  cases h with
  | accepts h post => exact .accepts (hsettles _ _ _ h) post
  | rejects h pre position => exact .rejects (hsettles _ _ _ h) pre position

/-- The kind of the current token is in view. -/
theorem decides_kind {f : ι → Kind → Reader α} (h : Decides (fun i => f i t.kind) room P Q t) :
    Decides (fun i => kind >>= f i) room P Q t :=
  decides_ask (fun _ hs _ => congrArg Token.kind hs) h

theorem decides_current {f : ι → Token → Reader α}
    (h : Decides (fun i => f i t.current) room P Q t) :
    Decides (fun i => current >>= f i) room P Q t :=
  decides_ask (fun _ hs _ => hs) h

/-- The place from a start to the end of the last token that was passed. This is why a tape has to
remember that end, and why readers settle on tapes with the same one. -/
theorem decides_spanFrom {start : Position} {f : ι → Span → Reader α}
    (h : Decides (fun i => f i (t.spanFrom start)) room P Q t) :
    Decides (fun i => spanFrom start >>= f i) room P Q t :=
  decides_ask (fun s _ hs => by rw [Tape.spanFrom, Tape.spanFrom, hs]) h

/-- A reader that passes a token. -/
theorem decides_advance {f : ι → Token → Reader α} (hends : t.Ends) (hkind : t.kind ≠ .eof)
    (h : Decides (fun i => f i t.current) (fun i => room i - 1) (fun b vs => P b (t.current :: vs))
      (fun vs => Q (t.current :: vs)) t.advance) :
    Decides (fun i => advance >>= f i) room P Q t := by
  have hsettles : Settles (fun _ : ι => advance) room t [t.current] t.advance (.ok t.current) := by
    refine ⟨⟨rfl, hkind, hends.rest_ne_nil hkind, rfl⟩, ?_⟩
    rintro i s s' - - ⟨hs, -, -, rfl⟩ -
    rw [advance, hs]
  cases h with
  | accepts h post => exact .accepts (hsettles.bind h) post
  | rejects h pre position => exact .rejects (hsettles.bind h) pre position

/-- A reader that passes a token of a kind, or fails where it stands. -/
theorem decides_checked {other : Reader Token} {k : Kind} (hends : t.Ends) (hk : k ≠ .eof)
    (hother : Decides (fun _ : ι => other) room (fun u us => us = [u] ∧ u.kind = k) (· = []) t) :
    Decides (fun _ : ι => (do if (← kind) = k then advance else other : Reader Token)) room
      (fun u us => us = [u] ∧ u.kind = k) (· = []) t := by
  refine decides_kind ?_
  by_cases hkind : t.kind = k
  · simp only [if_pos hkind]
    have hne : t.kind ≠ .eof := by
      rw [hkind]
      exact hk
    exact decides_advance (f := fun _ u => pure u) hends hne (decides_pure ⟨rfl, hkind⟩)
  · simp only [if_neg hkind]
    exact hother

/-- A token of a kind is passed, or the reader fails where it stands. -/
theorem decides_expect {k : Kind} (hends : t.Ends) (hk : k ≠ .eof) :
    Decides (fun _ : ι => expect k) room (fun u us => us = [u] ∧ u.kind = k) (· = []) t :=
  decides_checked hends hk (decides_unexpected rfl)

theorem decides_expectWhere {k : Kind} {message : String} (hends : t.Ends) (hk : k ≠ .eof) :
    Decides (fun _ : ι => expectWhere k message) room (fun u us => us = [u] ∧ u.kind = k) (· = [])
      t :=
  decides_checked hends hk (decides_unexpectedWhere rfl)

end Decides

/-- Readers one behind the other that give a value. -/
theorem exists_of_bind_eq_ok {r : Reader α} {f : α → Reader β} {t t' : Tape} {b : β}
    (h : (r >>= f) t = .ok b t') : ∃ a m, r t = .ok a m ∧ f a m = .ok b t' := by
  change Reader.bind r f t = .ok b t' at h
  rw [Reader.bind] at h
  cases hr : r t with
  | ok a m =>
    rw [hr] at h
    exact ⟨a, m, rfl, h⟩
  | error e m =>
    rw [hr] at h
    cases h
  | endless =>
    rw [hr] at h
    cases h

end Reader

end Pulse
