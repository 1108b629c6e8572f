import Mqom.Model.Keygen
import Mqom.Blc.Binding
import Mqom.Blc.Walks
import Mqom.Blc.Disclosure
import Mqom.Field.Polynomial
import Mqom.Field.Tower
import Mqom.Mq.Masking
import Mqom.Prg.KeySeparation
import Mqom.Sign.Challenge
import Mqom.Sign.Separation
import Mqom.Kat.RoundTrip
import Mqom.Verify.SoundnessError
import Mqom.Verify.Uniqueness
import Mqom.Mq.Simulation
import Mqom.Sign.Search
import Mqom.Sign.Shape
import Mqom.Sign.Reuse
import Mqom.Kat.Failures
