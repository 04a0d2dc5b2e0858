import QueryVars.Codec.Basic
import QueryVars.Codec.Config
import QueryVars.Codec.Event
import QueryVars.Codec.Maps
import QueryVars.Codec.Tagged
import QueryVars.Codec.Tagged.Lemmas
import QueryVars.Codec.Term
import QueryVars.Drift.Basic
import QueryVars.Drift.Intersect
import QueryVars.Equality.Basic
import QueryVars.Equality.Rename
import QueryVars.Fault
import QueryVars.Json.Basic
import QueryVars.Json.Lexeme
import QueryVars.Json.Number
import QueryVars.Json.Source
import QueryVars.Json.Text
import QueryVars.Proofs.Announced
import QueryVars.Proofs.Bodies
import QueryVars.Proofs.Branches
import QueryVars.Proofs.ByteOrder
import QueryVars.Proofs.CanonicalForm
import QueryVars.Proofs.CanonicalTerms
import QueryVars.Proofs.Categories
import QueryVars.Proofs.Conflicts
import QueryVars.Proofs.Draws
import QueryVars.Proofs.Failures
import QueryVars.Proofs.Fillings
import QueryVars.Proofs.FirstFaults
import QueryVars.Proofs.Following
import QueryVars.Proofs.Freshness
import QueryVars.Proofs.Generation
import QueryVars.Proofs.Grammar
import QueryVars.Proofs.Grounding
import QueryVars.Proofs.GroupFaults
import QueryVars.Proofs.Groups
import QueryVars.Proofs.Interleavings
import QueryVars.Proofs.Intersection
import QueryVars.Proofs.Logs
import QueryVars.Proofs.MapCodec
import QueryVars.Proofs.Names
import QueryVars.Proofs.Occurrences
import QueryVars.Proofs.Originals
import QueryVars.Proofs.Persistence
import QueryVars.Proofs.Recognisers
import QueryVars.Proofs.RenameSound
import QueryVars.Proofs.Respelling
import QueryVars.Proofs.RoundTrips
import QueryVars.Proofs.SecondPass
import QueryVars.Proofs.Shapes
import QueryVars.Proofs.Sharing
import QueryVars.Proofs.Stages
import QueryVars.Proofs.Staging
import QueryVars.Proofs.Traces
import QueryVars.Query.Body
import QueryVars.Session.Argument
import QueryVars.Session.Basic
import QueryVars.Session.Command
import QueryVars.Session.Question
import QueryVars.SortedMap
import QueryVars.Supply.Basic
import QueryVars.Supply.Generator
import QueryVars.Supply.Run
import QueryVars.Term.Basic
import QueryVars.Term.Sanitize
import QueryVars.Var.Basic
import QueryVars.Var.Category
import QueryVars.Var.Token
