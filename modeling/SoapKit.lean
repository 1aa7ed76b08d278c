import SoapKit.Calendar
import SoapKit.Client.Boxing
import SoapKit.Client.Compile
import SoapKit.Client.Content
import SoapKit.Client.Error
import SoapKit.Client.Layouts
import SoapKit.Client.Plan
import SoapKit.Client.Record
import SoapKit.Client.Source
import SoapKit.CommandLine.Invocation
import SoapKit.CommandLine.Mention
import SoapKit.CommandLine.Run
import SoapKit.Decimal.Binary
import SoapKit.Decimal.Integer
import SoapKit.Decimal.Shortest
import SoapKit.Folder
import SoapKit.Http.Chunked
import SoapKit.Http.Headers
import SoapKit.Http.Message
import SoapKit.Http.Multipart
import SoapKit.Main
import SoapKit.Naming.Aliases
import SoapKit.Naming.Case
import SoapKit.Naming.Fresh
import SoapKit.OrderedMap
import SoapKit.Proofs.Except
import SoapKit.Proofs.Soap.Call
import SoapKit.Proofs.Soap.Envelope
import SoapKit.Proofs.Soap.Fault
import SoapKit.Proofs.Soap.Handling
import SoapKit.Proofs.Soap.Trace
import SoapKit.Proofs.Text.Letters
import SoapKit.Proofs.Text.Spans
import SoapKit.Proofs.Xml.Arena
import SoapKit.Proofs.Xml.Assembly
import SoapKit.Proofs.Xml.Building
import SoapKit.Proofs.Xml.Draft.Declarations
import SoapKit.Proofs.Xml.Draft.Filling
import SoapKit.Proofs.Xml.Draft.Fills
import SoapKit.Proofs.Xml.Draft.Mirror
import SoapKit.Proofs.Xml.Draft.Reading
import SoapKit.Proofs.Xml.Layout
import SoapKit.Proofs.Xml.Namespaces
import SoapKit.Proofs.Xml.Node
import SoapKit.Proofs.Xml.Order
import SoapKit.Proofs.Xml.Path.Bindings
import SoapKit.Proofs.Xml.Path.Compile
import SoapKit.Proofs.Xml.Path.Denotation
import SoapKit.Proofs.Xml.Path.Selection
import SoapKit.Proofs.Xml.Production
import SoapKit.Proofs.Xml.Reference
import SoapKit.Proofs.Xml.Rereading
import SoapKit.Proofs.Xml.Resolution
import SoapKit.Proofs.Xml.Tag
import SoapKit.Proofs.Xml.Taking
import SoapKit.Proofs.Xml.Tree
import SoapKit.Rust.Code
import SoapKit.Rust.Ident
import SoapKit.Rust.Source
import SoapKit.Rust.Tokens
import SoapKit.Soap.Call
import SoapKit.Soap.Endpoint
import SoapKit.Soap.Fault
import SoapKit.Text.Alphanumeric
import SoapKit.Text.Blank
import SoapKit.Text.Boxes
import SoapKit.Text.NamePart
import SoapKit.Text.Quoted
import SoapKit.Text.Runs
import SoapKit.Text.Split
import SoapKit.Text.Upper
import SoapKit.Text.Utf8
import SoapKit.Text.Visible
import SoapKit.Url.Basic
import SoapKit.Url.Domain
import SoapKit.Url.Host
import SoapKit.Url.Percent
import SoapKit.Url.Resolve
import SoapKit.Wsdl.Collection
import SoapKit.Wsdl.Definitions
import SoapKit.Wsdl.Definitions.Reader
import SoapKit.Wsdl.Error
import SoapKit.Wsdl.Library
import SoapKit.Wsdl.NameScope
import SoapKit.Wsdl.QName
import SoapKit.Wsdl.Schema
import SoapKit.Wsdl.Schema.Reader
import SoapKit.Wsdl.Service
import SoapKit.Wsdl.Service.Reader
import SoapKit.Xml.Assembly
import SoapKit.Xml.Document
import SoapKit.Xml.Draft
import SoapKit.Xml.Elements
import SoapKit.Xml.Error
import SoapKit.Xml.Lenient
import SoapKit.Xml.Name
import SoapKit.Xml.Output
import SoapKit.Xml.Path
import SoapKit.Xml.Path.Compile
import SoapKit.Xml.Read
import SoapKit.Xml.Reference
import SoapKit.Xml.Serialize
import SoapKit.Xml.Strict
import SoapKit.Xml.Strict.Character
import SoapKit.Xml.Strict.Token
import SoapKit.Xml.Value
import SoapKit.Xml.Values
import SoapKit.Proofs.Text.Utf8
import SoapKit.Proofs.Http.Chunked
import SoapKit.Proofs.Http.Headers
import SoapKit.Proofs.Http.Multipart
import SoapKit.Proofs.Http.Parameters
import SoapKit.Proofs.Http.Related
import SoapKit.Proofs.Discovery
import SoapKit.Proofs.Wsdl.Collection
import SoapKit.Proofs.Client.Records
import SoapKit.Proofs.Client.Completion
import SoapKit.Proofs.Client.Source
import SoapKit.Proofs.Client.Classification
import SoapKit.Proofs.Client.Sizes
import SoapKit.Proofs.Client.Keeping
import SoapKit.Proofs.Client.NameUses
import SoapKit.Proofs.Client.Spelling
import SoapKit.Proofs.Naming.Fresh
import SoapKit.Proofs.Naming.Aliases
import SoapKit.Proofs.Client.ItemNames
import SoapKit.Proofs.Wsdl.Inclusion
import SoapKit.Proofs.Client.MemberNames
import SoapKit.Proofs.Client.MethodNames
import SoapKit.Proofs.Client.AttributeUses
import SoapKit.Proofs.Client.Attributes
import SoapKit.Proofs.Xml.Agreement.Alike
import SoapKit.Proofs.Xml.Agreement.Decoding
import SoapKit.Proofs.Xml.Agreement.Lexing
import SoapKit.Proofs.Xml.Agreement.Tokens
import SoapKit.Proofs.Xml.Agreement.Scopes
import SoapKit.Proofs.Xml.Agreement.Readers
import SoapKit.Proofs.Xml.Pieces
import SoapKit.Proofs.Xml.Elements
import SoapKit.Proofs.Wsdl.Sites
import SoapKit.Proofs.Wsdl.Spaces
import SoapKit.Proofs.OrderedMap
import SoapKit.Proofs.Xml.Excerpt
import SoapKit.Proofs.Xml.Standalone
import SoapKit.Proofs.Xml.Strict.Layout
import SoapKit.Proofs.Xml.Strict.Events
import SoapKit.Proofs.Xml.Strict.Canonical
import SoapKit.Proofs.Xml.Strict.Reading
import SoapKit.Proofs.Xml.Strict.Rereading
import SoapKit.Proofs.Text.Trimming
import SoapKit.Proofs.Xml.Acceptance
import SoapKit.Proofs.Xml.Path.Scanning
import SoapKit.Proofs.Xml.Path.Enumeration
import SoapKit.Proofs.Xml.Path.Composition
import SoapKit.Proofs.Xml.Path.Refusals
import SoapKit.Proofs.Xml.Path.Comparisons
import SoapKit.Proofs.Soap.Detection
import SoapKit.Proofs.Xml.Draft.Refusals
import SoapKit.Proofs.Http.ChunkLines
import SoapKit.Proofs.Http.Slices
import SoapKit.Proofs.Http.ChunkSizes
import SoapKit.Proofs.Http.Scanning
import SoapKit.Proofs.Http.Partition
import SoapKit.Proofs.Http.QuotedParameters
import SoapKit.Proofs.Wsdl.ModelGroups
import SoapKit.Proofs.Client.Contents
import SoapKit.Proofs.Client.Levels
import SoapKit.Proofs.Client.Elements
import SoapKit.Proofs.Client.Occurrence
import SoapKit.Proofs.Client.Walks
import SoapKit.Proofs.Client.Chains
import SoapKit.Proofs.Xml.Copies
import SoapKit.Proofs.Naming.Legality
import SoapKit.Proofs.Client.Legality
import SoapKit.Proofs.Client.NameErrors
import SoapKit.Proofs.Client.Mentions
import SoapKit.Proofs.Client.TypeNames
import SoapKit.Proofs.Client.Namespaces
import SoapKit.Proofs.Naming.Requests
import SoapKit.Proofs.Xml.Traversal
import SoapKit.Proofs.Xml.Descendants
