import EncryptedArithmetic.Ring.Transform

/-!
# The modulus chain

The data primes `q_0, …, q_L` come first and the special prime `P` of the key switching last. A
ciphertext of level `l` lives on `q_0, …, q_l`. Keys live on the whole chain and are narrowed to
`q_0, …, q_l, P` where they meet such a ciphertext.
-/

namespace EncryptedArithmetic

/-- The transform tables of a modulus chain, the special prime last. -/
structure ModulusChain where
  /-- The ring degree. -/
  degree : Nat
  /-- One table for each prime, at least two of them. -/
  tables : List RootTable

namespace ModulusChain

/-- The chain over a list of primes. -/
def build (primes : List UInt64) (degree : Nat) : Result RingError ModulusChain := do
  if primes.length < 2 then .fail (.tooFewPrimes 2 primes.length)
  else return ⟨degree, ← primes.mapM (RootTable.build · degree)⟩

/-- The highest level of a ciphertext. -/
def topLevel (c : ModulusChain) : Nat :=
  c.tables.length - 2

/-- All primes, the special one last. -/
def primes (c : ModulusChain) : List UInt64 :=
  c.tables.map RootTable.prime

/-- The table of the special prime, as a list of one. -/
def special (c : ModulusChain) : List RootTable :=
  c.tables.drop (c.tables.length - 1)

/-- The special prime. -/
def specialPrime (c : ModulusChain) : UInt64 :=
  (c.primes.getLast?).getD 0

/-- The tables of `q_0, …, q_level`. -/
def lower (c : ModulusChain) (level : Nat) : List RootTable :=
  c.tables.take (level + 1)

/-- The tables of `q_0, …, q_level, P`. -/
def extended (c : ModulusChain) (level : Nat) : List RootTable :=
  c.lower level ++ c.special

/-- Where the tables of `extended` stand in the whole chain. -/
def extendedPositions (c : ModulusChain) (level : Nat) : List Nat :=
  List.range (level + 1) ++ [c.tables.length - 1]

end ModulusChain

end EncryptedArithmetic
