import EncryptedArithmetic.Expression.Render
import EncryptedArithmetic.Expression.Postfix
import EncryptedArithmetic.Main
import EncryptedArithmetic.Proofs.Ring.Transform
import EncryptedArithmetic.Proofs.Ring.Table
import EncryptedArithmetic.Proofs.Ring.Polynomial
import EncryptedArithmetic.Proofs.Ring.Schoolbook
import EncryptedArithmetic.Proofs.Ring.Channels
import EncryptedArithmetic.Proofs.Key.Switching
import EncryptedArithmetic.Proofs.Sampling
import EncryptedArithmetic.Proofs.Key.Generation
import EncryptedArithmetic.Proofs.Modular.Prime
import EncryptedArithmetic.Proofs.Scheme.Parameters
import EncryptedArithmetic.Proofs.Scheme.Context
import EncryptedArithmetic.Proofs.Scheme.Product
import EncryptedArithmetic.Proofs.Decimal.Binary64
import EncryptedArithmetic.Proofs.Decimal.Rounding
import EncryptedArithmetic.Proofs.Request.Evaluation
import EncryptedArithmetic.Proofs.Sampling.Seeded
import EncryptedArithmetic.Proofs.Expression.Grammar
import EncryptedArithmetic.Proofs.Scheme.Session
import EncryptedArithmetic.Proofs.Request.Division
import EncryptedArithmetic.Proofs.Scheme.Encryption
import EncryptedArithmetic.Proofs.Request.Depth
import EncryptedArithmetic.Proofs.Request.Scale
import EncryptedArithmetic.Proofs.Request.Forecast
import EncryptedArithmetic.Proofs.Scheme.Sums
import EncryptedArithmetic.Proofs.Request.Addition
import EncryptedArithmetic.Proofs.Expression.Rendering
import EncryptedArithmetic.Proofs.Ring.Passes
import EncryptedArithmetic.Proofs.Scheme.Construction
import EncryptedArithmetic.Proofs.Request.Lifecycle
import EncryptedArithmetic.Proofs.Ring.Representation
import EncryptedArithmetic.Proofs.Ring.Centering
import EncryptedArithmetic.Proofs.Scheme.Constant
import EncryptedArithmetic.Proofs.Ring.Automorphism
import EncryptedArithmetic.Proofs.Modular.Largest
import EncryptedArithmetic.Proofs.Scheme.Transparent
import EncryptedArithmetic.Proofs.Scheme.Automorphism
import EncryptedArithmetic.Proofs.Expression.Positions
import EncryptedArithmetic.Proofs.Expression.Layout
import EncryptedArithmetic.Proofs.Expression.Limits
import EncryptedArithmetic.Proofs.Request.Walk
import EncryptedArithmetic.Proofs.Ring.Runs
import EncryptedArithmetic.Proofs.Modular.Descent
import EncryptedArithmetic.Proofs.Modular.Primality
import EncryptedArithmetic.Proofs.Ring.WordRange
import EncryptedArithmetic.Proofs.Key.Elements
import EncryptedArithmetic.Proofs.Modular.Power
