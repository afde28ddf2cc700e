namespace Cose

/-- A number modulo `p`, in reduced form. -/
structure Residue (p : Nat) where
  val : Nat
  reduced : val % p = val
deriving DecidableEq

namespace Residue

variable {p : Nat}

def ofNat (p n : Nat) : Residue p := ⟨n % p, Nat.mod_mod n p⟩

instance (n : Nat) : OfNat (Residue p) n := ⟨ofNat p n⟩
instance : Add (Residue p) := ⟨fun a b => ofNat p (a.val + b.val)⟩
instance : Sub (Residue p) := ⟨fun a b => ofNat p (a.val + (p - b.val))⟩
instance : Mul (Residue p) := ⟨fun a b => ofNat p (a.val * b.val)⟩

/-- A residue raised to a power by repeated squaring. -/
def power (x : Residue p) (n : Nat) : Residue p :=
  if n = 0 then 1
  else
    let half := power x (n / 2)
    if n % 2 = 0 then half * half else x * (half * half)
termination_by n

/-- The inverse of a residue modulo a prime, zero for zero. -/
def inverse (x : Residue p) : Residue p :=
  x.power (p - 2)

end Residue

end Cose
