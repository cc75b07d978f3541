import WebArchive.Address
import WebArchive.Arc.Header
import WebArchive.Arc.Version
import WebArchive.Arc.VersionBlock
import WebArchive.Archive.Basic
import WebArchive.Archive.Dialect
import WebArchive.Archive.Error
import WebArchive.Archive.Packed
import WebArchive.Archive.Plain
import WebArchive.Bytes
import WebArchive.Calendar.Civil
import WebArchive.Calendar.Instant
import WebArchive.Calendar.Timestamp
import WebArchive.Checksum
import WebArchive.CommandLine
import WebArchive.ContentType
import WebArchive.Deflate.Bits
import WebArchive.Deflate.Compress
import WebArchive.Deflate.Compressor
import WebArchive.Deflate.FixedBlock
import WebArchive.Deflate.Inflate
import WebArchive.Deflate.Inflater
import WebArchive.Deflate.PrefixCode
import WebArchive.Deflate.Repetition
import WebArchive.Deflate.Stored
import WebArchive.Deflate.Token
import WebArchive.Diagnostics
import WebArchive.Digest.Basic
import WebArchive.Digest.Block
import WebArchive.Digest.Sha1
import WebArchive.Digest.Sha256
import WebArchive.Gzip.Container
import WebArchive.Gzip.Error
import WebArchive.Gzip.Flags
import WebArchive.Gzip.Found
import WebArchive.Gzip.Header
import WebArchive.Gzip.Member
import WebArchive.Gzip.Packed
import WebArchive.Gzip.Writer
import WebArchive.Main
import WebArchive.Options
import WebArchive.Payload.Basic
import WebArchive.Payload.Entity
import WebArchive.Proofs.Arc.Fields
import WebArchive.Proofs.Arc.VersionBlock
import WebArchive.Proofs.Archive.Agreement
import WebArchive.Proofs.Archive.Chunking
import WebArchive.Proofs.Archive.Closing
import WebArchive.Proofs.Archive.Counting
import WebArchive.Proofs.Archive.Cut
import WebArchive.Proofs.Archive.Headings
import WebArchive.Proofs.Archive.Ledger
import WebArchive.Proofs.Archive.Opening
import WebArchive.Proofs.Archive.Reading
import WebArchive.Proofs.Archive.Refinement
import WebArchive.Proofs.Archive.Retry
import WebArchive.Proofs.Archive.Tiling
import WebArchive.Proofs.Archive.Visits
import WebArchive.Proofs.Calendar.Civil
import WebArchive.Proofs.Calendar.Timestamp
import WebArchive.Proofs.Checksum
import WebArchive.Proofs.ContentType
import WebArchive.Proofs.Deflate.Compression
import WebArchive.Proofs.Deflate.CutOff
import WebArchive.Proofs.Deflate.Delivery
import WebArchive.Proofs.Deflate.Machine
import WebArchive.Proofs.Deflate.Taking
import WebArchive.Proofs.Diagnostics
import WebArchive.Proofs.Digest
import WebArchive.Proofs.Gzip.CutShort
import WebArchive.Proofs.Gzip.HeaderEncoding
import WebArchive.Proofs.Gzip.HeaderReading
import WebArchive.Proofs.Gzip.HeaderText
import WebArchive.Proofs.Gzip.Members
import WebArchive.Proofs.Gzip.Position
import WebArchive.Proofs.Gzip.RoundTrip
import WebArchive.Proofs.Gzip.Stray
import WebArchive.Proofs.Gzip.Tiling
import WebArchive.Proofs.Gzip.Verdicts
import WebArchive.Proofs.Payload.Accounting
import WebArchive.Proofs.Payload.Entity
import WebArchive.Proofs.Record.Lifecycle
import WebArchive.Proofs.Record.Retry
import WebArchive.Proofs.Record.Use
import WebArchive.Proofs.Scan.Members
import WebArchive.Proofs.Stream.Cutting
import WebArchive.Proofs.Stream.Delivery
import WebArchive.Proofs.Stream.Keeping
import WebArchive.Proofs.Stream.Lines
import WebArchive.Proofs.Stream.Strikes
import WebArchive.Proofs.Stream.Tracking
import WebArchive.Proofs.Stream.Windows
import WebArchive.Proofs.Text.Ascii
import WebArchive.Proofs.Text.Decoding
import WebArchive.Proofs.Text.Digits
import WebArchive.Proofs.Text.Trimming
import WebArchive.Proofs.Uri
import WebArchive.Proofs.Warc.BlankField
import WebArchive.Proofs.Warc.Fields
import WebArchive.Proofs.Warc.Folding
import WebArchive.Proofs.Warc.Limits
import WebArchive.Record.Basic
import WebArchive.Record.Heading
import WebArchive.Scan.Basic
import WebArchive.Scan.Log
import WebArchive.Stream.Bounded
import WebArchive.Stream.Buffered
import WebArchive.Stream.Chained
import WebArchive.Stream.Cursor
import WebArchive.Stream.Error
import WebArchive.Stream.Line
import WebArchive.Stream.Readable
import WebArchive.Stream.Sink
import WebArchive.Stream.Source
import WebArchive.Text.Basic
import WebArchive.Text.Blank
import WebArchive.Text.Encoding
import WebArchive.Text.Number
import WebArchive.Text.Quoted
import WebArchive.Text.Visible
import WebArchive.Uri
import WebArchive.Warc.DeclaredDigest
import WebArchive.Warc.Field
import WebArchive.Warc.Header
import WebArchive.Warc.HeaderBlock
import WebArchive.Warc.HeaderLine
