/-
This file models `status.h` and `status.cpp`: status codes and the exceptions of the server.
-/

import SimpleNFast.Construction.Text

namespace SimpleNFast.Http

/-- The enumeration has an integer below it, and a cast yields any integer. -/
structure StatusCode where
  value : Int
  deriving DecidableEq, Repr

namespace StatusCode

def CONTINUE : StatusCode := ⟨100⟩
def SWITCHING_PROTOCOLS : StatusCode := ⟨101⟩
def OK : StatusCode := ⟨200⟩
def CREATED : StatusCode := ⟨201⟩
def ACCEPTED : StatusCode := ⟨202⟩
def NON_AUTH_INFO : StatusCode := ⟨203⟩
def NO_CONTENT : StatusCode := ⟨204⟩
def RESET_CONTENT : StatusCode := ⟨205⟩
def PARTIAL_CONTENT : StatusCode := ⟨206⟩
def MULTIPLE_CHOICES : StatusCode := ⟨300⟩
def MOVED_PERMANENTLY : StatusCode := ⟨301⟩
def FOUND : StatusCode := ⟨302⟩
def SEE_OTHER : StatusCode := ⟨303⟩
def NOT_MODIFIED : StatusCode := ⟨304⟩
def USE_PROXY : StatusCode := ⟨305⟩
def TEMP_REDIRECT : StatusCode := ⟨307⟩
def BAD_REQUEST : StatusCode := ⟨400⟩
def UNAUTHORIZED : StatusCode := ⟨401⟩
def PAYMENT_REQD : StatusCode := ⟨402⟩
def FORBIDDEN : StatusCode := ⟨403⟩
def NOT_FOUND : StatusCode := ⟨404⟩
def METHOD_NOT_ALLOWED : StatusCode := ⟨405⟩
def NOT_ACCEPTABLE : StatusCode := ⟨406⟩
def PROXY_AUTH_REQD : StatusCode := ⟨407⟩
def REQUEST_TIMEOUT : StatusCode := ⟨408⟩
def CONFLICT : StatusCode := ⟨409⟩
def GONE : StatusCode := ⟨410⟩
def LENGTH_REQD : StatusCode := ⟨411⟩
def PRECOND_FAILED : StatusCode := ⟨412⟩
def PAYLOAD_TOO_LARGE : StatusCode := ⟨413⟩
def URI_TOO_LONG : StatusCode := ⟨414⟩
def UNSUPPORTED_MEDIA_TYPE : StatusCode := ⟨415⟩
def RANGE_NOT_SATISFIABLE : StatusCode := ⟨416⟩
def EXPECTATION_FAILED : StatusCode := ⟨417⟩
def UPGRADE_REQD : StatusCode := ⟨426⟩
def INTERNAL_SERVER_ERROR : StatusCode := ⟨500⟩
def NOT_IMPLEMENTED : StatusCode := ⟨501⟩
def BAD_GATEWAY : StatusCode := ⟨502⟩
def SERVICE_UNAVAILABLE : StatusCode := ⟨503⟩
def GATEWAY_TIMEOUT : StatusCode := ⟨504⟩
def HTTP_VERSION_NOT_SUPPORTED : StatusCode := ⟨505⟩

def isInfo (status : StatusCode) : Bool := 100 ≤ status.value && status.value < 200

def isSuccess (status : StatusCode) : Bool := 200 ≤ status.value && status.value < 300

def isError (status : StatusCode) : Bool := 400 ≤ status.value

/-- The phrases of `reason_phrase` in the order of its switch. -/
def reasons : List (StatusCode × String) :=
  [(CONTINUE, "Continue"),
   (SWITCHING_PROTOCOLS, "Switching Protocols"),
   (OK, "OK"),
   (CREATED, "Created"),
   (ACCEPTED, "Accepted"),
   (NON_AUTH_INFO, "Non-Authoritative Information"),
   (NO_CONTENT, "No Content"),
   (RESET_CONTENT, "Reset Content"),
   (PARTIAL_CONTENT, "Partial Content"),
   (MULTIPLE_CHOICES, "Multiple Choices"),
   (MOVED_PERMANENTLY, "Moved Permanently"),
   (FOUND, "Found"),
   (SEE_OTHER, "See Other"),
   (NOT_MODIFIED, "Not Modified"),
   (USE_PROXY, "Use Proxy"),
   (TEMP_REDIRECT, "Temporary Redirect"),
   (BAD_REQUEST, "Bad Request"),
   (UNAUTHORIZED, "Unauthorized"),
   (PAYMENT_REQD, "Payment Required"),
   (FORBIDDEN, "Forbidden"),
   (NOT_FOUND, "Not Found"),
   (METHOD_NOT_ALLOWED, "Method Not Allowed"),
   (NOT_ACCEPTABLE, "Not Acceptable"),
   (PROXY_AUTH_REQD, "Proxy Authentication Required"),
   (REQUEST_TIMEOUT, "Request Timeout"),
   (CONFLICT, "Conflict"),
   (GONE, "Gone"),
   (LENGTH_REQD, "Length Required"),
   (PRECOND_FAILED, "Precondition Failed"),
   (PAYLOAD_TOO_LARGE, "Payload Too Large"),
   (URI_TOO_LONG, "URI Too Long"),
   (UNSUPPORTED_MEDIA_TYPE, "Unsupported Media Type"),
   (RANGE_NOT_SATISFIABLE, "Range Not Satisfiable"),
   (EXPECTATION_FAILED, "Expectation Failed"),
   (UPGRADE_REQD, "Upgrade Required"),
   (INTERNAL_SERVER_ERROR, "Internal Server Error"),
   (NOT_IMPLEMENTED, "Not Implemented"),
   (BAD_GATEWAY, "Bad Gateway"),
   (SERVICE_UNAVAILABLE, "Service Unavailable"),
   (GATEWAY_TIMEOUT, "Gateway Timeout"),
   (HTTP_VERSION_NOT_SUPPORTED, "HTTP Version Not Supported")]

/-- The value `none` is the null pointer for an unknown code. -/
def reasonPhrase (status : StatusCode) : Option Text := (reasons.lookup status).map text

end StatusCode

/-- The exceptions that the sources of the server throw or let through, and the end at a null pointer. -/
inductive Fault where
  | badMessage (what : Text)
  | badUri (what : Text)
  | notFound (what : Text)
  | notImplemented (what : Text)
  | exception (what : Text) (status : StatusCode)
  | systemError (what : Text)
  | runtimeError (what : Text)
  | invalidArgument (what : Text)
  | outOfRange (what : Text)
  | lengthError (what : Text)
  | badFunctionCall
  | nullPointer
  deriving DecidableEq, Repr

/-- An exception of this kind derives from `std::runtime_error`. -/
def Fault.isRuntimeError : Fault → Bool
  | .badMessage _ | .badUri _ | .notFound _ | .notImplemented _ | .exception _ _ | .systemError _
  | .runtimeError _ => true
  | .invalidArgument _ | .outOfRange _ | .lengthError _ | .badFunctionCall | .nullPointer => false

end SimpleNFast.Http
