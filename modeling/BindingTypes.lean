import BindingTypes.Descriptor
import BindingTypes.Session.Basic
import BindingTypes.Generalize
import BindingTypes.TypeCode
import BindingTypes.Spelling
import BindingTypes.Diagnostic.Report
import BindingTypes.Proofs.Registry.Rows
import BindingTypes.Proofs.Registry.TableIndex
import BindingTypes.Proofs.Registry.Consistency
import BindingTypes.Proofs.Scope.Transparency
import BindingTypes.Proofs.Scope.Meaning
import BindingTypes.Proofs.DeclTree.Growth
import BindingTypes.Proofs.Template.Frame
import BindingTypes.Proofs.Session.Failure
import BindingTypes.Proofs.Scope.Idempotence
import BindingTypes.Proofs.Scope.Ending
import BindingTypes.Proofs.Declaration.RoundTrip
import BindingTypes.Proofs.Scope.Shadowing
import BindingTypes.Proofs.Scope.Reopening
import BindingTypes.Proofs.Scope.Absolute
import BindingTypes.Proofs.Scope.Congruence
import BindingTypes.Proofs.Declaration.Rendering
import BindingTypes.Proofs.DeclTree.Links
import BindingTypes.Proofs.Template.Instance
import BindingTypes.Proofs.Registry.Closure
import BindingTypes.Proofs.Registry.DataSearch
import BindingTypes.Proofs.Registry.Conflict
import BindingTypes.Proofs.Registry.Equivalence
import BindingTypes.Proofs.Scope.Spelled
import BindingTypes.Proofs.Session.Scopes
import BindingTypes.Proofs.Scope.CanonicalBase
import BindingTypes.Proofs.Scope.ClassScope
import BindingTypes.Proofs.Scope.UsingKept
import BindingTypes.Proofs.Registry.Subtyping
import BindingTypes.Proofs.Session.Bases
import BindingTypes.Proofs.CType.Pieces
import BindingTypes.Proofs.CType.Words
import BindingTypes.Proofs.CType.Substitution
import BindingTypes.Proofs.CType.Renaming
import BindingTypes.Proofs.CType.Rounds
import BindingTypes.Proofs.Template.Rounds
import BindingTypes.Proofs.CType.Constructors
import BindingTypes.Proofs.DeclTree.Preorder
import BindingTypes.Proofs.Diagnostic.Acceptance
import BindingTypes.Proofs.Scope.Outer
import BindingTypes.Proofs.CType.Partition
import BindingTypes.Proofs.Registry.Refolding
import BindingTypes.Proofs.Scope.Acyclic
import BindingTypes.Proofs.CType.Signature
import BindingTypes.Proofs.CType.Indirection
import BindingTypes.Proofs.CType.Assignable
import BindingTypes.Proofs.CType.Outgrown
import BindingTypes.Proofs.Template.Shape
import BindingTypes.Proofs.Scope.Finding
import BindingTypes.Proofs.Registry.Descriptors
import BindingTypes.Proofs.Declaration.Parsed
import BindingTypes.Proofs.CType.Classified
import BindingTypes.Proofs.Template.PartialMatch
import BindingTypes.Proofs.Text.Runs
import BindingTypes.Proofs.CType.Dimensions
import BindingTypes.Proofs.Declaration.Simple
import BindingTypes.Proofs.Declaration.Located
