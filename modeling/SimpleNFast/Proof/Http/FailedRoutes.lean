import SimpleNFast.Construction.Http.Routes
import SimpleNFast.Proof.Http.PathParameters

namespace SimpleNFast.Http
open ForestSearch

variable {regex : Text → Except Text (Text → Bool)} {handler : Option RequestHandler} {level rest : List PathSegment}
  {segment : PathSegment} {part : Text} {parts : List Text}

/-- The handler at the end of the first path of segments. -/
def ends (parts : List Text) (level : List PathSegment) : Option (Option RequestHandler) :=
  (firstSegments parts level).map fun nodes => nodes.getLast?.bind PathSegment.handler

/-- A path ends with the handler of its first segments. -/
theorem outcome_eq (router : Router) (path : Text) : router.outcome path =
    match ends (elements path) router.root with
    | some (some handler) => .invoked handler
    | some none => .notImplemented
    | none => .notFound := by
  obtain ⟨found, last⟩ := Search.path_result (elements path) router.root .init
  unfold Router.outcome ends
  cases result : Search.path (elements path) router.root .init with
  | mk fine search =>
      rw [result] at found last
      cases nodes : firstSegments (elements path) router.root with
      | none =>
          rw [nodes] at found
          cases found
          rfl
      | some nodes' =>
          rw [nodes] at found last
          cases found
          dsimp only [Search.init] at last ⊢
          rw [last, Option.or_none, Option.map_some]
          cases nodes'.getLast?.bind PathSegment.handler <;> rfl

/-- A handler that is called gives the answer, and a path without a handler or without a resource gives the error. -/
theorem handle_outcome (router : Router) (request : Request) :
    match router.outcome request.uri.path.component with
    | .invoked handler => router.AnswersWith request handler
    | .notImplemented => router.handle request = .error (.notImplemented (request.method.str ++
        text " is not implemented for resource (" ++ request.uri.str ++ text ")"))
    | .notFound => router.handle request = .error (.notFound (text "resource (" ++ request.uri.str ++
        text ") is not found")) := by
  unfold Router.outcome elements
  cases result : Search.path (split request.uri.path.component.length request.uri.path.component) router.root .init with
  | mk found search =>
      cases found with
      | false =>
          dsimp only
          unfold Router.handle
          dsimp only
          rw [result]
      | true =>
          cases handler : search.seg.bind PathSegment.handler with
          | some called =>
              have invoked : router.invoked request.uri.path.component = some called := by
                unfold Router.invoked elements
                rw [result]
                exact handler
              dsimp only
              rw [handler]
              exact answersWith_of_invoked invoked
          | none =>
              dsimp only
              unfold Router.handle
              dsimp only
              rw [result]
              dsimp only
              rw [handler]
              rfl

end SimpleNFast.Http
