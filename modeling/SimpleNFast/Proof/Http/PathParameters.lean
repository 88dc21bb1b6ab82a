import SimpleNFast.Construction.Http.Routes
import SimpleNFast.Proof.Http.Routing

namespace SimpleNFast.Http
open ForestSearch

namespace Search

variable {search : Search} {segment : PathSegment} {part : Text}

/-- What the search keeps of a parameter. -/
def entry (pair : PathSegment × Text) : Text × Text := (pair.1.name, pair.2)

end Search

/-- The handler is called with the request that is delivered. -/
theorem Router.handle_eq (router : Router) (request : Request) : router.handle request =
    match Search.path (elements request.uri.path.component) router.root .init with
    | (true, search) =>
        let asked := router.delivered request
        match (do checkBody asked (← call (search.seg.bind PathSegment.handler) asked)) with
        | .error .badFunctionCall =>
            .error (.notImplemented (request.method.str ++ text " is not implemented for resource (" ++
              request.uri.str ++ text ")"))
        | result => result
    | (false, _) => .error (.notFound (text "resource (" ++ request.uri.str ++ text ") is not found")) := by
  unfold handle delivered elements
  dsimp only
  cases Search.path (split request.uri.path.component.length request.uri.path.component) router.root .init with
  | mk found search =>
      cases found with
      | false => rfl
      | true => rfl

end SimpleNFast.Http
