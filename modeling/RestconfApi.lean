import RestconfApi.Main
import RestconfApi.Path.Handlers
import RestconfApi.Schema.Provenance
import RestconfApi.Service.Reply
import RestconfApi.Swagger.Renaming
import RestconfApi.Proofs.Generation.Compositions
import RestconfApi.Proofs.Generation.Depth
import RestconfApi.Proofs.Generation.Leafrefs
import RestconfApi.Proofs.Generation.OperationIds
import RestconfApi.Proofs.Generation.PathParameters
import RestconfApi.Proofs.Generation.Payloads
import RestconfApi.Proofs.Generation.Strategies
import RestconfApi.Proofs.Swagger.Aliases
import RestconfApi.Proofs.Definitions.Following
import RestconfApi.Proofs.Definitions.Sessions
import RestconfApi.Proofs.Definitions.Agreement
import RestconfApi.Proofs.Generation.Agreement
import RestconfApi.Proofs.Generation.Repetition
import RestconfApi.Proofs.Schema.Orders
import RestconfApi.Proofs.Schema.Grafting
import RestconfApi.Proofs.Schema.Layout
import RestconfApi.Proofs.Schema.Exactness
import RestconfApi.Proofs.Schema.Copies
import RestconfApi.Proofs.Schema.Writing
import RestconfApi.Proofs.Schema.Circularity
import RestconfApi.Proofs.Schema.Faults
import RestconfApi.Proofs.Generation.Requirements
import RestconfApi.Proofs.Schema.Permutation
import RestconfApi.Proofs.Swagger.Dependencies
import RestconfApi.Proofs.Swagger.Meaning
import RestconfApi.Proofs.Swagger.References
import RestconfApi.Proofs.Schema.Chains
import RestconfApi.Proofs.Schema.Resolution
import RestconfApi.Proofs.Schema.Climbing
import RestconfApi.Proofs.Generation.Bounds
import RestconfApi.Proofs.Schema.Reachability
import RestconfApi.Proofs.Generation.Choices
import RestconfApi.Proofs.Definitions.Counting
import RestconfApi.Proofs.Definitions.Completion
