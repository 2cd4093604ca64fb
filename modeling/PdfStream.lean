import PdfStream.Main
import PdfStream.Signing.Certificate
import PdfStream.Signing.PrivateKey
import PdfStream.Signing.SignedAttributes
import PdfStream.Proofs.Sink
import PdfStream.Proofs.Engine.Lifecycle
import PdfStream.Proofs.Modular
import PdfStream.Proofs.Coder
import PdfStream.Proofs.RunLength
import PdfStream.Proofs.AsciiHex
import PdfStream.Proofs.Ascii85
import PdfStream.Proofs.Cipher.Aes
import PdfStream.Proofs.Cipher.Cbc
import PdfStream.Proofs.Cipher.Rc4
import PdfStream.Proofs.Crypt
import PdfStream.Proofs.Predictor
import PdfStream.Proofs.Lzw.Reader
import PdfStream.Proofs.Lzw.Encoder
import PdfStream.Proofs.Lzw.RoundTrip
import PdfStream.Proofs.Flate.Inflate
import PdfStream.Proofs.Flate.Fill
import PdfStream.Proofs.Flate.Reader
import PdfStream.Proofs.Flate.Canonical
import PdfStream.Proofs.Flate.Format
import PdfStream.Proofs.Flate.Run
import PdfStream.Proofs.Flate.Tables
import PdfStream.Proofs.Flate.Block
import PdfStream.Proofs.Flate.Stream
import PdfStream.Proofs.Flate.Written
import PdfStream.Proofs.Flate.RoundTrip
import PdfStream.Proofs.Codec
import PdfStream.Proofs.Engine.Buffered
import PdfStream.Proofs.Chain.Session
import PdfStream.Proofs.Chain.Composition
import PdfStream.Proofs.Chain.RoundTrip
import PdfStream.Proofs.Ascii85.Text
import PdfStream.Proofs.Crypt.Inverse
import PdfStream.Proofs.Codec.Restart
import PdfStream.Proofs.Engine.History
import PdfStream.Proofs.Chain.History
import PdfStream.Proofs.Chain.Restart
import PdfStream.Proofs.Sink.Delivery
import PdfStream.Proofs.Sink.Session
import PdfStream.Proofs.Engine.Output
import PdfStream.Proofs.Chain.Output
import PdfStream.Proofs.Codec.RoundTrip
import PdfStream.Proofs.Codec.PostPass
import PdfStream.Proofs.Codec.Faults
import PdfStream.Proofs.Ascii85.Grammar
import PdfStream.Proofs.Chain.Workers
import PdfStream.Proofs.Chain.Lifecycle
import PdfStream.Proofs.RunLength.Records
import PdfStream.Proofs.Codec.Blocks
import PdfStream.Proofs.Chain.Invariant
import PdfStream.Proofs.Codec.Ready
import PdfStream.Proofs.Engine.Ready
import PdfStream.Proofs.Checked.Step
import PdfStream.Proofs.Checked.Text
import PdfStream.Proofs.Checked.Cipher
import PdfStream.Proofs.Checked.Lzw
import PdfStream.Proofs.Checked.Flate
import PdfStream.Proofs.Checked.Codec
import PdfStream.Proofs.Checked.Lifecycle
import PdfStream.Proofs.Codec.Delimited
import PdfStream.Proofs.Engine.Shared
import PdfStream.Proofs.Signing.SignedAttributes
import PdfStream.Proofs.CommandLine.Arguments
import PdfStream.Proofs.CommandLine.Run
import PdfStream.Proofs.Crypto.Lifecycle
import PdfStream.Proofs.Predictor.Png
import PdfStream.Proofs.Signing.PrivateKey
import PdfStream.Proofs.Signing.SigningTime
import PdfStream.Proofs.Predictor.Tiff
import PdfStream.Proofs.RunLength.Canonical
import PdfStream.Proofs.Predictor.Parameters
import PdfStream.Proofs.Crypt.Release
import PdfStream.Proofs.Crypt.Method
import PdfStream.Proofs.Signing.KeyFile
import PdfStream.Proofs.AsciiHex.Grammar
import PdfStream.Proofs.Crypt.Keystream
import PdfStream.Proofs.Predictor.Pixels
import PdfStream.Proofs.Ascii85.Blanks
import PdfStream.Proofs.DecodeParms
