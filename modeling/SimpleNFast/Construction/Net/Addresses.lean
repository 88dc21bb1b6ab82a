/-
This file models `addrinfo.cpp` and the two lookups of `sa.cpp`, which turn a list of `getaddrinfo` into addresses.
-/

import SimpleNFast.Construction.Text

namespace SimpleNFast.Net

def AF_INET : Nat := 2
def AF_INET6 : Nat := 10

def AI_PASSIVE : Nat := 1
def AI_NUMERICHOST : Nat := 4
def AI_V4MAPPED : Nat := 8
def AI_ADDRCONFIG : Nat := 32
def AI_NUMERICSERV : Nat := 1024

def EAI_AGAIN : Int := -3
def EAI_SYSTEM : Int := -11

def MAX_TRIES : Nat := 10

/-- The sizes of `sockaddr_in` and `sockaddr_in6`. -/
def sizeofIn : Nat := 16
def sizeofIn6 : Nat := 28

/-- The family is the first member of each socket address, with the low byte first. -/
def familyOf (bytes : List UInt8) : Nat := (bytes.getD 0 0).toNat + 256 * (bytes.getD 1 0).toNat

/-- An entry of the list; its address has the family that the entry names, and the size of this family. -/
structure Addrinfo where
  family : Nat
  addr : List UInt8
  named : familyOf addr = family
  size : family = AF_INET → addr.length = sizeofIn
  size6 : family = AF_INET6 → addr.length = sizeofIn6
  deriving DecidableEq

/-- The bytes of the union that a constructor of `socket_address` sets. -/
structure SocketAddress where
  bytes : List UInt8
  deriving DecidableEq, Repr

namespace SocketAddress

/-- The constructor copies as many bytes as a `sockaddr_in` has. -/
def ofIn (sin : List UInt8) : SocketAddress := ⟨sin.take sizeofIn⟩

/-- The constructor copies as many bytes as a `sockaddr_in6` has. -/
def ofIn6 (sin6 : List UInt8) : SocketAddress := ⟨sin6.take sizeofIn6⟩

def isIpv4 (address : SocketAddress) : Bool := familyOf address.bytes == AF_INET

def isIpv6 (address : SocketAddress) : Bool := familyOf address.bytes == AF_INET6

end SocketAddress

/-- The exceptions of the lookups. -/
inductive LookupFault where
  | invalidArgument (what : Text)
  | gaiError (status : Int) (what : Text)
  | systemError (errno : Int) (what : Text)
  deriving DecidableEq, Repr

/-- A call of `getaddrinfo` finds entries, or it fails with a status and the error number of the system. -/
inductive Lookup where
  | found (res : List Addrinfo)
  | failed (status errno : Int)
  deriving DecidableEq

inductive SocketType where
  | tcp
  | udp
  deriving DecidableEq, Repr

structure Hints where
  flags : Nat
  family : Nat
  socktype : Nat
  deriving DecidableEq, Repr

/-- The resolver answers the tries of one lookup: the host may be missing. -/
abbrev Resolver := Option Text → Text → Hints → Nat → Lookup

/-- The loop tries again for a temporary failure; the tries that remain end it. -/
def tryLookup (attempt : Nat → Lookup) : Nat → Nat → Lookup
  | 0, curTries => attempt curTries
  | remaining + 1, curTries =>
      match attempt curTries with
      | .failed status errno =>
          if status = EAI_AGAIN ∧ remaining ≠ 0 then tryLookup attempt remaining (curTries + 1)
          else .failed status errno
      | found => found

/-- This is `get_address_info`; a missing host adds nothing to the text of the exception. -/
def getAddressInfo (getaddrinfo : Resolver) (host : Option Text) (svc : Text) (hints : Hints) :
    Except LookupFault (List Addrinfo) :=
  match tryLookup (getaddrinfo host svc hints) MAX_TRIES 0 with
  | .found res => .ok res
  | .failed status errno =>
      let what := text "failed to get address for " ++ host.getD []
      if status = EAI_SYSTEM then .error (.systemError errno what) else .error (.gaiError status what)

namespace SocketAddress

/-- The loop over the list behind `res`: it looks at the family of each entry, and it reads from `res`. -/
def collect (res : Addrinfo) : List Addrinfo → List SocketAddress
  | [] => []
  | ptr :: next =>
      if ptr.family = AF_INET then ofIn res.addr :: collect res next
      else if res.family = AF_INET6 then ofIn6 res.addr :: collect res next
      else collect res next

def collectAll : List Addrinfo → List SocketAddress
  | [] => []
  | res :: next => collect res (res :: next)

/-- The flag for a service that is a number. -/
def serviceFlag (svc : Text) : Nat := if svc.all (isDigit ∘ toInt) then AI_NUMERICSERV else 0

def socktype : SocketType → Nat
  | .tcp => 1
  | .udp => 2

def serverHints (family : Nat) (type : SocketType) (svc : Text) : Hints :=
  ⟨AI_PASSIVE ||| AI_ADDRCONFIG ||| (if family = AF_INET6 then AI_V4MAPPED else 0) ||| serviceFlag svc, family, socktype type⟩

/-- A host that `internet_address` accepts is a number. -/
def clientHints (inetPton : Text → Bool) (family : Nat) (type : SocketType) (host svc : Text) : Hints :=
  ⟨AI_ADDRCONFIG ||| (if family = AF_INET6 then AI_V4MAPPED else 0) ||| (if inetPton host then AI_NUMERICHOST else 0) |||
    serviceFlag svc, family, socktype type⟩

def noService : LookupFault := .invalidArgument (text "service/port must be specified")

def getServer (getaddrinfo : Resolver) (family : Nat) (type : SocketType) (svc : Text) :
    Except LookupFault (List SocketAddress) :=
  if svc.isEmpty then .error noService
  else collectAll <$> getAddressInfo getaddrinfo none svc (serverHints family type svc)

def getClient (getaddrinfo : Resolver) (inetPton : Text → Bool) (family : Nat) (type : SocketType) (host svc : Text) :
    Except LookupFault (List SocketAddress) :=
  if svc.isEmpty then .error noService
  else collectAll <$> getAddressInfo getaddrinfo (some host) svc (clientHints inetPton family type host svc)

end SocketAddress

namespace Addrinfo

/-- The address of an IPv4 or IPv6 entry, from the entry itself. -/
def own (entry : Addrinfo) : Option SocketAddress :=
  if entry.family = AF_INET then some (.ofIn entry.addr)
  else if entry.family = AF_INET6 then some (.ofIn6 entry.addr)
  else none

/-- Each IPv4 or IPv6 entry has the family and the address of the first one, and an IPv6 entry is followed by such
entries only. -/
structure LikeFirst (first entry : Addrinfo) : Prop where
  same : entry.family = AF_INET ∨ entry.family = AF_INET6 → entry.family = first.family ∧ entry.addr = first.addr
  only6 : first.family = AF_INET6 → entry.family = AF_INET6

/-- Only the first entry of a list counts. -/
def AllLikeFirst (res : List Addrinfo) : Prop := ∀ first ∈ res.head?, ∀ entry ∈ res, LikeFirst first entry

end Addrinfo

end SimpleNFast.Net
