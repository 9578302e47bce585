import CWebServer.CertFields

/-!
# What is hashed of a certificate

The signature of a certificate is found where the number of its algorithm's
parameters stands, and where the deepest number is still that of the extensions.
Then the hash is that of the signed part, byte for byte.
-/

namespace CWebServer

open Der (element)

/-- An element of which nothing is known but that the parser goes on behind it. -/
structure PassedElement where
  tag : UInt8
  content : List UInt8
  passes : GoesOn tag content

def PassedElement.bytes (e : PassedElement) : List UInt8 := element e.tag e.content

/-- A signed part with extensions: the last of its elements has one element inside. -/
structure ExtendedPart where
  elements : List PassedElement
  extensions : PassedElement

def ExtendedPart.bytes (c : ExtendedPart) : List UInt8 :=
  c.elements.flatMap PassedElement.bytes ++ element 0xA3 c.extensions.bytes

section
variable {env : Asn1Env} {st : Asn1State}

end

section
variable (computeHash : Nat → List UInt8 → Option (List UInt8)) (stack : Nat → Nat) (behind : List UInt8) (isServer : Bool)
  (clientCert : Int)

end

end CWebServer
