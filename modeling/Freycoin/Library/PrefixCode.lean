import Mathlib.Logic.Function.Basic

/-! Prefix codes: an encoder into strings over an alphabet and a reader that takes one value
off the front of a string, returning it with what follows or failing with an error. -/

namespace PrefixCode

section Reader

/-! The simp set that runs a reader written in `do` notation in the `Except` monad. -/

universe u v

variable {ε : Type u} {α β : Type v}

@[simp] theorem ok_bind (a : α) (f : α → Except ε β) : (Except.ok a >>= f) = f a := rfl

@[simp] theorem error_bind (e : ε) (f : α → Except ε β) : (Except.error e >>= f) = .error e := rfl

@[simp] theorem throw_eq_error (e : ε) : (throw e : Except ε α) = .error e := rfl

@[simp] theorem pure_eq_ok (a : α) : (pure a : Except ε α) = .ok a := rfl

@[simp] theorem map_error (e : ε) (f : α → β) : (f <$> Except.error e : Except ε β) = .error e :=
  rfl

end Reader

/-- A canonical prefix code of values of `α` as strings of `β`, with errors in `ε`. -/
structure Code (α β ε : Type*) where
  encode : α → List β
  decode : List β → Except ε (α × List β)
  decode_encode : ∀ value rest, decode (encode value ++ rest) = .ok (value, rest)
  decode_canonical : ∀ input value rest, decode input = .ok (value, rest) →
    input = encode value ++ rest

variable {α β ε : Type*} (code : Code α β ε)

namespace Code

theorem decode_eq_ok_iff {input : List β} {value : α} {rest : List β} :
    code.decode input = .ok (value, rest) ↔ input = code.encode value ++ rest := by
  constructor
  · exact code.decode_canonical input value rest
  · rintro rfl
    exact code.decode_encode value rest

theorem encode_append_inj {first second : α} {rest other : List β}
    (same : code.encode first ++ rest = code.encode second ++ other) :
    first = second ∧ rest = other := by
  have read := code.decode_encode first rest
  rw [same, code.decode_encode] at read
  cases read
  exact ⟨rfl, rfl⟩

theorem encode_injective : Function.Injective code.encode := by
  intro first second same
  have joined : code.encode first ++ [] = code.encode second ++ [] := by rw [same]
  exact (code.encode_append_inj joined).1

end Code

end PrefixCode
