import Mathlib.Data.Fin.Basic
import Mathlib.Tactic.Ring

/-!
# Bytes, little-endian integers, UTF-8 and faults

The codec and the storage engine share these.  A byte is a `u8`; a Rust `String`
or `Vec<u8>` is its list of bytes, so that a `String` built with
`from_utf8_unchecked` from arbitrary bytes is representable too, and
`String::from_utf8` is the check `utf8Valid`.  `byteorder`'s
`write_u32::<LittleEndian>` and `read_u32` are `leBytes 4` and `ofLeBytes`.

Every stateful Rust method is modelled in `EStateM`: a call that returns `Err`
keeps the mutations it made before its `?`, as a `&mut self` receiver does.
-/

namespace RustyDb

abbrev Byte := Fin 256

abbrev Bytes := List Byte

inductive IoError where
  | unexpectedEof
  | invalidInput
  | notFound
  deriving DecidableEq, Repr

/--
How a call ends when it does not return `Ok`: an `Err` of the call's error type,
or a panic (an `unwrap` of `None` or `Err`, an index out of bounds, an overflow
in a debug build).
-/
inductive Fault (ε : Type) where
  | error (e : ε)
  | panic
  deriving DecidableEq, Repr

/-- Run `m` on the part `get s` of the state, writing the part back with `set` whether `m`
returns or fails: a method called on a field of a `&mut self` receiver. -/
def zoom {ε σ τ α : Type} (get : σ → τ) (set : σ → τ → σ) (m : EStateM ε τ α) :
    EStateM ε σ α := fun s =>
  match m (get s) with
  | .ok a t => .ok a (set s t)
  | .error e t => .error e (set s t)

def Fault.isPanic {ε : Type} : Fault ε → Bool
  | .panic => true
  | .error _ => false

/-- `.unwrap()` on the `Result` a call returns: an `Err` becomes a panic. -/
def unwrap {ε σ α : Type} (m : EStateM (Fault ε) σ α) : EStateM (Fault ε) σ α := fun s =>
  match m s with
  | .ok a s => .ok a s
  | .error _ s => .error .panic s

def liftExcept {ε σ α : Type} (x : Except ε α) : EStateM (Fault ε) σ α := fun s =>
  match x with
  | .ok a => .ok a s
  | .error e => .error (.error e) s

def throwPanic {ε σ α : Type} : EStateM (Fault ε) σ α := fun s => .error .panic s

section EStateM

variable {ε σ τ α β : Type}

@[simp] theorem zoom_apply (get : σ → τ) (set : σ → τ → σ) (m : EStateM ε τ α) (s : σ) :
    zoom get set m s =
      match m (get s) with
      | .ok a t => .ok a (set s t)
      | .error e t => .error e (set s t) := rfl

theorem bind_apply (x : EStateM ε σ α) (f : α → EStateM ε σ β) (s : σ) :
    (x >>= f) s =
      match x s with
      | .ok a s => f a s
      | .error e s => .error e s := rfl

theorem ok_of_bind_eq_ok {x : EStateM ε σ α} {f : α → EStateM ε σ β} {s s' : σ} {b : β}
    (h : (x >>= f) s = .ok b s') : ∃ a s₁, x s = .ok a s₁ ∧ f a s₁ = .ok b s' := by
  rw [bind_apply] at h
  cases hx : x s with
  | ok a s₁ => rw [hx] at h; exact ⟨a, s₁, rfl, h⟩
  | error e s₁ => rw [hx] at h; cases h

@[simp] theorem pure_apply (a : α) (s : σ) : (pure a : EStateM ε σ α) s = .ok a s := rfl

@[simp] theorem get_apply (s : σ) : (get : EStateM ε σ σ) s = .ok s s := rfl

@[simp] theorem set_apply (s s' : σ) : (set s' : EStateM ε σ PUnit) s = .ok ⟨⟩ s' := rfl

@[simp] theorem modify_apply (f : σ → σ) (s : σ) :
    (modify f : EStateM ε σ PUnit) s = .ok ⟨⟩ (f s) := rfl

@[simp] theorem unwrap_apply (m : EStateM (Fault ε) σ α) (s : σ) :
    unwrap m s =
      match m s with
      | .ok a s => .ok a s
      | .error _ s => .error .panic s := rfl

theorem forM_unwrap_of_ok {f : α → EStateM (Fault ε) σ PUnit} {xs : List α} {s s' : σ}
    (h : xs.forM f s = .ok ⟨⟩ s') : xs.forM (fun x => unwrap (f x)) s = .ok ⟨⟩ s' := by
  induction xs generalizing s with
  | nil => exact h
  | cons x xs ih =>
      rw [List.forM_cons'] at h
      obtain ⟨⟨⟩, s₁, hx, hr⟩ := ok_of_bind_eq_ok h
      rw [List.forM_cons', bind_apply, unwrap_apply, hx]
      exact ih hr

theorem forM_append_of_ok {f : α → EStateM ε σ PUnit} {xs ys : List α} {s s₁ s' : σ}
    (h : xs.forM f s = .ok ⟨⟩ s₁) (h' : ys.forM f s₁ = .ok ⟨⟩ s') :
    (xs ++ ys).forM f s = .ok ⟨⟩ s' := by
  induction xs generalizing s with
  | nil => cases h; exact h'
  | cons x xs ih =>
      rw [List.forM_cons'] at h
      obtain ⟨⟨⟩, s₂, hx, hr⟩ := ok_of_bind_eq_ok h
      rw [List.cons_append, List.forM_cons', bind_apply, hx]
      exact ih hr

def mapState (f : σ → τ) : EStateM.Result ε σ α → EStateM.Result ε τ α
  | .ok a s => .ok a (f s)
  | .error e s => .error e (f s)

theorem bind_mapState {f : σ → τ} {x : EStateM ε σ α} {y : EStateM ε τ α}
    {k : α → EStateM ε σ β} {l : α → EStateM ε τ β}
    (hx : ∀ s, y (f s) = mapState f (x s)) (hk : ∀ a s, l a (f s) = mapState f (k a s))
    (s : σ) : (y >>= l) (f s) = mapState f ((x >>= k) s) := by
  rw [bind_apply, bind_apply, hx]
  cases x s with
  | ok a s' => exact hk a s'
  | error e s' => rfl

/-! ## Runs of calls and what they keep -/

/-- The results of `calls` made one after another from `s`, and the state after them. -/
def runCalls {κ ο : Type} (run : κ → EStateM (Fault ε) σ ο) :
    List κ → σ → List (Except (Fault ε) ο) × σ
  | [], s => ([], s)
  | c :: cs, s =>
      match run c s with
      | .ok a s' => ((runCalls run cs s').1.cons (.ok a), (runCalls run cs s').2)
      | .error e s' =>
          if e.isPanic then ([.error e], s')
          else ((runCalls run cs s').1.cons (.error e), (runCalls run cs s').2)

theorem runCalls_map {κ ο : Type} {runA : κ → EStateM (Fault ε) σ ο}
    {runB : κ → EStateM (Fault ε) τ ο} {f : σ → τ}
    (hstep : ∀ c s, runB c (f s) = mapState f (runA c s))
    (cs : List κ) (s : σ) :
    runCalls runB cs (f s) = ((runCalls runA cs s).1, f (runCalls runA cs s).2) := by
  induction cs generalizing s with
  | nil => rfl
  | cons c cs ih =>
      simp only [runCalls, hstep]
      cases runA c s with
      | ok a s' => simp only [mapState, ih]
      | error e s' =>
          simp only [mapState]
          split <;> simp only [ih]

def outState : EStateM.Result ε σ α → σ
  | .ok _ s => s
  | .error _ s => s

def Keeps (P : σ → Prop) (x : EStateM ε σ α) : Prop := ∀ s, P s → P (outState (x s))

section Keeps

variable {P : σ → Prop}

theorem keeps_pure (a : α) : Keeps P (pure a : EStateM ε σ α) := fun _ h => h

theorem keeps_throwPanic : Keeps P (throwPanic : EStateM (Fault ε) σ α) := fun _ h => h

theorem keeps_liftExcept (x : Except ε α) : Keeps P (liftExcept x : EStateM (Fault ε) σ α) := by
  intro s h
  cases x <;> exact h

theorem keeps_modify {f : σ → σ} (hf : ∀ s, P s → P (f s)) :
    Keeps P (modify f : EStateM ε σ PUnit) := hf

theorem keeps_set {s' : σ} (h : P s') : Keeps P (set s' : EStateM ε σ PUnit) := fun _ _ => h

theorem keeps_get_bind {k : σ → EStateM ε σ β} (h : ∀ s, P s → Keeps P (k s)) :
    Keeps P (get >>= k) := fun s hs => h s hs s hs

theorem keeps_bind {x : EStateM ε σ α} {k : α → EStateM ε σ β} (hx : Keeps P x)
    (hk : ∀ a, Keeps P (k a)) : Keeps P (x >>= k) := by
  intro s hs
  have h₁ := hx s hs
  rw [bind_apply]
  cases h : x s with
  | ok a s' => rw [h] at h₁; exact hk a s' h₁
  | error e s' => rw [h] at h₁; exact h₁

theorem keeps_forM {f : α → EStateM ε σ PUnit} {xs : List α} (h : ∀ a ∈ xs, Keeps P (f a)) :
    Keeps P (xs.forM f) := by
  induction xs with
  | nil => exact keeps_pure _
  | cons x xs ih =>
      rw [List.forM_cons']
      exact keeps_bind (h x (.head _)) fun _ => ih fun a ha => h a (.tail _ ha)

theorem keeps_zoom {get' : σ → τ} {set' : σ → τ → σ} {Q : τ → Prop} {m : EStateM ε τ α}
    (hm : Keeps Q m) (hget : ∀ s, P s → Q (get' s)) (hset : ∀ s t, P s → Q t → P (set' s t)) :
    Keeps P (zoom get' set' m) := by
  intro s hs
  have h₁ := hm _ (hget s hs)
  rw [zoom_apply]
  cases h : m (get' s) <;> rw [h] at h₁ <;> exact hset _ _ hs h₁

theorem keeps_zoom_of_set {get' : σ → τ} {set' : σ → τ → σ} {m : EStateM ε τ α}
    (hset : ∀ s t, P s → P (set' s t)) : Keeps P (zoom get' set' m) :=
  keeps_zoom (Q := fun _ => True) (fun _ _ => trivial) (fun _ _ => trivial)
    fun s t hs _ => hset s t hs

theorem runCalls_keeps {κ ο : Type} {run : κ → EStateM (Fault ε) σ ο} (h : ∀ c, Keeps P (run c))
    (cs : List κ) {s : σ} (hs : P s) : P (runCalls run cs s).2 := by
  induction cs generalizing s with
  | nil => exact hs
  | cons c cs ih =>
      have h₁ := h c s hs
      cases hc : run c s with
      | ok a s' => rw [hc] at h₁; simpa only [runCalls, hc] using ih h₁
      | error e s' =>
          rw [hc] at h₁
          simp only [runCalls, hc]
          split
          · exact h₁
          · exact ih h₁

end Keeps

/-! ## Two machines that run alike -/

def resultOf : EStateM.Result ε σ α → Except ε α
  | .ok a _ => .ok a
  | .error e _ => .error e

/-- From states related by `R`, `x` and `y` return the same and end in related states. -/
def Simulates {τ : Type} (R : σ → τ → Prop) (x : EStateM ε σ α) (y : EStateM ε τ α) : Prop :=
  ∀ s t, R s t → resultOf (x s) = resultOf (y t) ∧ R (outState (x s)) (outState (y t))

theorem Simulates.bind {τ β : Type} {R : σ → τ → Prop} {x : EStateM ε σ α} {y : EStateM ε τ α}
    {k : α → EStateM ε σ β} {k' : α → EStateM ε τ β} (hx : Simulates R x y)
    (hk : ∀ a, Simulates R (k a) (k' a)) : Simulates R (x >>= k) (y >>= k') := by
  intro s t hst
  obtain ⟨hr, hR⟩ := hx s t hst
  rw [bind_apply, bind_apply]
  cases hxs : x s with
  | ok a s' =>
      cases hyt : y t with
      | ok b t' =>
          rw [hxs, hyt] at hr hR
          cases hr
          exact hk a s' t' hR
      | error e t' => rw [hxs, hyt] at hr; cases hr
  | error e s' =>
      cases hyt : y t with
      | ok b t' => rw [hxs, hyt] at hr; cases hr
      | error f t' =>
          rw [hxs, hyt] at hr hR
          cases hr
          exact ⟨rfl, hR⟩

theorem simulates_forM {τ : Type} {R : σ → τ → Prop} {f : α → EStateM ε σ PUnit}
    {g : α → EStateM ε τ PUnit} :
    ∀ {xs : List α}, (∀ a ∈ xs, Simulates R (f a) (g a)) → Simulates R (xs.forM f) (xs.forM g)
  | [], _ => fun _ _ hst => ⟨rfl, hst⟩
  | a :: xs, h => Simulates.bind (h a (List.mem_cons_self a xs))
      fun _ => simulates_forM fun b hb => h b (List.mem_cons_of_mem a hb)

theorem runCalls_sim {τ κ ο : Type} {runA : κ → EStateM (Fault ε) σ ο}
    {runB : κ → EStateM (Fault ε) τ ο} {R : σ → τ → Prop} (cs : List κ)
    (hc : ∀ c ∈ cs, Simulates R (runA c) (runB c)) {s : σ} {t : τ} (hst : R s t) :
    (runCalls runA cs s).1 = (runCalls runB cs t).1 ∧
      R (runCalls runA cs s).2 (runCalls runB cs t).2 := by
  induction cs generalizing s t with
  | nil => exact ⟨rfl, hst⟩
  | cons c cs ih =>
      have ih' := fun {s' t'} (h : R s' t') => ih (fun c' hc' => hc c' (.tail c hc')) h
      have hstep := hc c (List.mem_cons_self c cs) s t hst
      cases ha : runA c s with
      | ok a s' =>
          cases hb : runB c t with
          | ok b t' =>
              rw [ha, hb] at hstep
              obtain ⟨hr, hR⟩ := hstep
              cases hr
              simp only [outState] at hR
              simp only [runCalls, ha, hb, (ih' hR).1, (ih' hR).2, and_true]
          | error e t' => rw [ha, hb] at hstep; cases hstep.1
      | error e s' =>
          cases hb : runB c t with
          | ok b t' => rw [ha, hb] at hstep; cases hstep.1
          | error f t' =>
              rw [ha, hb] at hstep
              obtain ⟨hr, hR⟩ := hstep
              cases hr
              simp only [outState] at hR
              simp only [runCalls, ha, hb]
              split
              · exact ⟨rfl, hR⟩
              · simp only [(ih' hR).1, (ih' hR).2, and_true]

def NoError (x : EStateM (Fault ε) σ α) : Prop := ∀ s e s', x s ≠ .error (.error e) s'

def ErrorKeepsState (x : EStateM (Fault ε) σ α) : Prop :=
  ∀ s e s', x s = .error (.error e) s' → s' = s

section NoError

theorem noError_pure (a : α) : NoError (pure a : EStateM (Fault ε) σ α) := by
  rintro _ _ _ ⟨⟩

theorem noError_get : NoError (get : EStateM (Fault ε) σ σ) := by
  rintro _ _ _ ⟨⟩

theorem noError_set (s' : σ) : NoError (set s' : EStateM (Fault ε) σ PUnit) := by
  rintro _ _ _ ⟨⟩

theorem noError_modify (f : σ → σ) : NoError (modify f : EStateM (Fault ε) σ PUnit) := by
  rintro _ _ _ ⟨⟩

theorem noError_throwPanic : NoError (throwPanic : EStateM (Fault ε) σ α) := by
  rintro _ _ _ ⟨⟩

theorem noError_bind {x : EStateM (Fault ε) σ α} {k : α → EStateM (Fault ε) σ β}
    (hx : NoError x) (hk : ∀ a, NoError (k a)) : NoError (x >>= k) := by
  intro s e s' h
  rw [bind_apply] at h
  cases hs : x s with
  | ok a s₁ => rw [hs] at h; exact hk a s₁ e s' h
  | error f s₁ => rw [hs] at h; cases h; exact hx s e s' hs

theorem noError_forM {f : α → EStateM (Fault ε) σ PUnit} (h : ∀ a, NoError (f a))
    (xs : List α) : NoError (xs.forM f) := by
  induction xs with
  | nil => exact noError_pure _
  | cons x xs ih => rw [List.forM_cons']; exact noError_bind (h x) fun _ => ih

theorem noError_zoom {get' : σ → τ} {set' : σ → τ → σ} {m : EStateM (Fault ε) τ α}
    (hm : NoError m) : NoError (zoom get' set' m) := by
  intro s e s' h
  rw [zoom_apply] at h
  cases hs : m (get' s) with
  | ok a t => rw [hs] at h; cases h
  | error f t => rw [hs] at h; cases h; exact hm _ e t hs

theorem errorKeepsState_liftExcept (x : Except ε α) :
    ErrorKeepsState (liftExcept x : EStateM (Fault ε) σ α) := by
  intro s e s' h
  cases x <;> cases h
  rfl

theorem errorKeepsState_get_bind {k : σ → EStateM (Fault ε) σ β}
    (h : ∀ s, ErrorKeepsState (k s)) : ErrorKeepsState (get >>= k) :=
  fun s => h s s

theorem errorKeepsState_bind {x : EStateM (Fault ε) σ α} {k : α → EStateM (Fault ε) σ β}
    (hx : ErrorKeepsState x) (hk : ∀ a, NoError (k a)) : ErrorKeepsState (x >>= k) := by
  intro s e s' h
  rw [bind_apply] at h
  cases hs : x s with
  | ok a s₁ => rw [hs] at h; exact absurd h (hk a s₁ e s')
  | error f s₁ => rw [hs] at h; cases h; exact hx s e _ hs

end NoError

end EStateM

/-! ## Little-endian integers -/

/-- The `w` little-endian bytes of `n`; bits above `8 * w` are dropped, as `n as u32` drops them. -/
def leBytes : Nat → Nat → Bytes
  | 0, _ => []
  | w + 1, n => Fin.ofNat' 256 n :: leBytes w (n / 256)

def ofLeBytes : Bytes → Nat
  | [] => 0
  | b :: bs => b.val + 256 * ofLeBytes bs

@[simp] theorem length_leBytes (w n : Nat) : (leBytes w n).length = w := by
  induction w generalizing n with
  | zero => rfl
  | succ w ih => simp [leBytes, ih]

theorem ofLeBytes_leBytes (w n : Nat) : ofLeBytes (leBytes w n) = n % 256 ^ w := by
  induction w generalizing n with
  | zero => simp [leBytes, ofLeBytes, Nat.mod_one]
  | succ w ih =>
      simp only [leBytes, ofLeBytes, Fin.val_ofNat', ih, pow_succ']
      rw [Nat.mod_mul]

def u32Bytes (x : Nat) : Bytes := leBytes 4 x

def u64Bytes (x : Nat) : Bytes := leBytes 8 x

@[simp] theorem length_u32Bytes (x : Nat) : (u32Bytes x).length = 4 := rfl

@[simp] theorem length_u64Bytes (x : Nat) : (u64Bytes x).length = 8 := rfl

theorem ofLeBytes_u32Bytes (x : Nat) : ofLeBytes (u32Bytes x) = x % 2 ^ 32 := by
  rw [u32Bytes, ofLeBytes_leBytes]; norm_num

theorem ofLeBytes_u64Bytes (x : Nat) : ofLeBytes (u64Bytes x) = x % 2 ^ 64 := by
  rw [u64Bytes, ofLeBytes_leBytes]; norm_num

/-! ## UTF-8 -/

def utf8CharWidth (b : Nat) : Nat :=
  if b < 0x80 then 1
  else if b < 0xC2 then 0
  else if b < 0xE0 then 2
  else if b < 0xF0 then 3
  else if b < 0xF5 then 4
  else 0

def utf8SecondRange (b : Nat) : Nat × Nat :=
  if b = 0xE0 then (0xA0, 0xBF)
  else if b = 0xED then (0x80, 0x9F)
  else if b = 0xF0 then (0x90, 0xBF)
  else if b = 0xF4 then (0x80, 0x8F)
  else (0x80, 0xBF)

def isContinuation (b : Byte) : Bool := 0x80 ≤ b.val && b.val ≤ 0xBF

def utf8CharValid (b : Byte) (rest : Bytes) : Bool :=
  let w := utf8CharWidth b.val
  w != 0 && w - 1 ≤ rest.length &&
    match rest.take (w - 1) with
    | [] => true
    | c :: cs =>
        (utf8SecondRange b.val).1 ≤ c.val && c.val ≤ (utf8SecondRange b.val).2 &&
          cs.all isContinuation

/-- `String::from_utf8` accepts exactly the byte strings `utf8Valid` holds of. -/
def utf8Valid (bs : Bytes) : Bool := go bs.length bs
where
  go : Nat → Bytes → Bool
    | _, [] => true
    | 0, _ :: _ => false
    | fuel + 1, b :: rest =>
        utf8CharValid b rest && go fuel (rest.drop (utf8CharWidth b.val - 1))

example : utf8Valid [0x66, 0x6F, 0x6F] = true := by decide

example : utf8Valid [0xFF] = false := by decide

end RustyDb
