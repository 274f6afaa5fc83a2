import MetadataArchive.Archive.Basic
import MetadataArchive.Proofs.Archive.Callers
import MetadataArchive.Proofs.Archive.Category
import MetadataArchive.Proofs.Archive.Clients
import MetadataArchive.Proofs.Archive.Conformance
import MetadataArchive.Proofs.Archive.Deletion
import MetadataArchive.Proofs.Archive.Foreign
import MetadataArchive.Proofs.Archive.Freshness
import MetadataArchive.Proofs.Archive.Hindsight
import MetadataArchive.Proofs.Archive.Indexing
import MetadataArchive.Proofs.Archive.Ownership
import MetadataArchive.Proofs.Archive.Proxies
import MetadataArchive.Proofs.Archive.Purge
import MetadataArchive.Proofs.Archive.Readable
import MetadataArchive.Proofs.Archive.Staleness
import MetadataArchive.Proofs.Archive.Tidiness
import MetadataArchive.Proofs.Fact.Mixed
import MetadataArchive.Proofs.Lifecycle.Accounting
import MetadataArchive.Proofs.Lifecycle.Expiry
import MetadataArchive.Proofs.Lifecycle.Transport
import MetadataArchive.Proofs.Query.Matching
import MetadataArchive.Proofs.Query.Pointwise
import MetadataArchive.Proofs.Record.Lossless
import MetadataArchive.Proofs.Record.Naming
import MetadataArchive.Proofs.Record.Overwriting
import MetadataArchive.Proofs.Schema.Subtyping
import MetadataArchive.Proofs.Search.Classified
import MetadataArchive.Proofs.Search.Related
import MetadataArchive.Proofs.Search.Stumbling
import MetadataArchive.Proofs.Search.Undeclared
import MetadataArchive.Proofs.Search.Whole
import MetadataArchive.Proofs.Store.Delivery
import MetadataArchive.Proofs.Store.Eviction
import MetadataArchive.Proofs.Store.Preview
import MetadataArchive.Proofs.Store.Sequence
import MetadataArchive.Query.Encoding
import MetadataArchive.Store.Encoding
import MetadataArchive.Proofs.Fact.Scan
